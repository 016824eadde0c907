import CPrograms.ComputerSystems.Reverse
import CPrograms.Help.Decode
import CPrograms.MySqlite3.Repl
import CPrograms.ParseConfig.File
import CPrograms.PemeClock.Display
import CPrograms.PemeClock.Session
import CPrograms.PocketDB.Block
import CPrograms.PocketDB.Session
import CPrograms.Puzzle15.Asking
import CPrograms.Redis.ClientSafety
import CPrograms.Redis.DictScan
import CPrograms.Redis.Protocol
