import CPrograms.Puzzle15.P15

/-!
# The class `Puzzle`

The puzzle of `my-15-puzzle.cpp`. It numbers the directions `1..4` and offers them in
another order than `p15`, but plays tiles in the same way. Its win test also looks at the
last cell, where it expects `16`, so no game it deals is ever won.
-/

namespace CPrograms.Puzzle15

open CPrograms.Library

namespace Puzzle

/-- The `switch` of `makeMove` and of `printMoveMess`. -/
def displace (d x y : Int) : Int × Int :=
  if d = 1 then (x - 1, y)
  else if d = 2 then (x, y - 1)
  else if d = 3 then (x + 1, y)
  else if d = 4 then (x, y + 1)
  else (x, y)

/-- The codes pushed for a blank in column `x` and row `y`. -/
def possibleMoves (x y : Int) : List Int :=
  (if x > 0 then [1] else []) ++ (if y > 0 then [2] else []) ++
    (if x < 3 then [3] else []) ++ (if y < 3 then [4] else [])

/-- The numbering of the directions. -/
def codes : Codes := ⟨displace, possibleMoves⟩

/-- The moves of the blank that stay on the board. -/
def getPossibleMoves (game : Game) : List Int := possibleMoves game.x game.y

/-- Move the blank and put the tile it passes in its old cell. -/
def makeMove (game : Game) (d : Int) : Option Game := game.move codes d

/-- Append the tiles the possible moves would shift to those already listed. -/
def printMoveMess (game : Game) (v p : List Int) : Option (List Int) :=
  (game.tiles codes v).map (p ++ ·)

/-- Reset the board, but not the position of the blank, and make 1000 random moves. -/
def createBoard (old : Game) (rand : Nat → Nat) : Option Game :=
  Game.shuffle codes rand { old with board := solvedBoard }

/-- The place of a number in a list, or `-1`. -/
def findIndex (v : List Int) (p : Int) : Int :=
  match v.findIdx? (· == p) with
  | some i => i
  | none => -1

/-- The loop of `getMove`, with the list `m` that grows by the offered tiles at every
round. There is no result while the input has no number that is listed. -/
def getMoveLoop (game : Game) (v m : List Int) : List Int → Option (Int × List Int)
  | [] => none
  | s :: entries => do
      let m ← printMoveMess game v m
      let ind := findIndex m s
      if ind = -1 then getMoveLoop game v m entries
      else (v[ind.toNat]?).map fun d => (d, entries)

/-- The direction of the first tile entered that is on offer. -/
def getMove (game : Game) (entries : List Int) : Option (Int × List Int) :=
  getMoveLoop game (getPossibleMoves game) [] entries

/-- Every cell holds its number, the last one included. -/
def isDone (game : Game) : Bool :=
  (List.finRange 16).all fun i => game.board i == (i : Nat) + 1

/-- The games that occur at the head of the inner loop of `play`: the first deal, a later
turn, or the deal that follows a finished game. -/
inductive Playing : Game → Prop where
  | deal (board : Board) (rand : Nat → Nat) {game : Game} :
      createBoard ⟨board, 3, 3⟩ rand = some game → Playing game
  | turn {game next : Game} (entries : List Int) {d : Int} {rest : List Int} :
      Playing game → isDone game = false → getMove game entries = some (d, rest) →
      makeMove game d = some next → Playing next
  | again {game next : Game} (answer : Char) (rand : Nat → Nat) :
      Playing game → isDone game = true → answer = 'Y' → createBoard game rand = some next →
      Playing next

/-- The codes of the moves are sound. -/
theorem codes_sound : codes.Sound where
  offered_eq := by decide
  displace_eq := by decide
  adjacent_iff := by decide

/-! ## Agreement with `p15` -/

/-- **The two programs play alike.** From a state that legal moves reach, every sequence of
tile choices has the same outcome in both; where it ends both offer the same tiles, and
choosing one of them stays on the board and gives the same state. -/
theorem playTile_bisimilar (start : Game)
    (reachable : ∃ ds, run (Game.playCode P15.codes) Game.solved ds = some start)
    (choices : List Int) :
    run (Game.playTile codes) start choices = run (Game.playTile P15.codes) start choices ∧
      ∀ game, run (Game.playTile codes) start choices = some game →
        ∃ offered offeredP15,
          printMoveMess game (getPossibleMoves game) [] = some offered ∧
          P15.getTiles game (P15.getCandidates game) = some offeredP15 ∧
          (∀ z, z ∈ offered ↔ z ∈ offeredP15) ∧
          ∀ z ∈ offered, ∃ next,
            game.playTile codes z = some next ∧ game.playTile P15.codes z = some next := by
  have legal := (Game.exists_run_iff_legal P15.codes_sound start).1 reachable
  refine ⟨run_congr (Game.playTile_keeps codes_sound)
    (Game.playTile_eq codes_sound P15.codes_sound) legal choices, fun game ran => ?_⟩
  obtain ⟨p, fair, rfl⟩ := run_invariant (Game.playTile_keeps codes_sound) legal ran
  obtain ⟨offered, listed, members⟩ := Game.mem_tiles_iff codes_sound p
  obtain ⟨offeredP15, listedP15, membersP15⟩ := Game.mem_tiles_iff P15.codes_sound p
  refine ⟨offered, offeredP15, ?_, listedP15, fun z => ?_, fun z member => ?_⟩
  · change Option.map _ ((Game.ofTiling p).tiles codes _) = _
    exact congrArg (Option.map _) listed
  · rw [members, membersP15]
  · obtain ⟨cell, near, tile⟩ := (members z).1 member
    exact ⟨_, (Game.playTile_eq_some_iff codes_sound fair z _).2 ⟨cell, near, tile, rfl⟩,
      (Game.playTile_eq_some_iff P15.codes_sound fair z _).2 ⟨cell, near, tile, rfl⟩⟩

/-- Two moves from the solved board, in both programs. -/
theorem playTile_bisimilar_solved :
    (run (Game.playTile codes) Game.solved [15, 11]).isSome = true ∧
      run (Game.playTile codes) Game.solved [15, 11] =
        run (Game.playTile P15.codes) Game.solved [15, 11] :=
  ⟨by decide, (playTile_bisimilar Game.solved ⟨[], rfl⟩ [15, 11]).1⟩

/-! ## The win test -/

/-- The direction `getMove` returns is one of those it was given. -/
theorem mem_of_getMoveLoop {game : Game} {v m entries rest : List Int} {d : Int}
    (chosen : getMoveLoop game v m entries = some (d, rest)) : d ∈ v := by
  induction entries generalizing m with
  | nil => cases chosen
  | cons s entries ih =>
      simp only [getMoveLoop, Option.bind_eq_bind, Option.bind_eq_some_iff] at chosen
      obtain ⟨m, -, chosen⟩ := chosen
      split at chosen
      · exact ih chosen
      · obtain ⟨_, found, same⟩ := Option.map_eq_some_iff.1 chosen
        cases same
        exact List.mem_of_getElem? found

/-- On a tiling the last cell never holds the `16` that the win test expects there. -/
theorem isDone_eq_false {game : Game} (legal : game.Legal) : isDone game = false := by
  obtain ⟨p, -, rfl⟩ := legal
  rw [isDone, List.all_eq_false]
  refine ⟨15, List.mem_finRange _, ?_⟩
  have small : ∀ i, solvedBoard i ≠ 16 := by decide
  rw [beq_iff_eq]
  exact small _

/-- Every game of a run of `play` is legal. -/
theorem Playing.legal {game : Game} (playing : Playing game) : game.Legal := by
  induction playing with
  | deal board rand dealt =>
      obtain ⟨made, dealt', legal⟩ := Game.legal_solved.shuffle codes_sound rand
      have same : some made = some _ := dealt'.symm.trans dealt
      cases same
      exact legal
  | turn entries _ _ chosen moved legal =>
      obtain ⟨after, moved', legal'⟩ := legal.playCode codes_sound (mem_of_getMoveLoop chosen)
      have same : some after = some _ := moved'.symm.trans moved
      cases same
      exact legal'
  | again answer rand _ done _ _ legal =>
      rw [isDone_eq_false legal] at done
      cases done

/-- Draws that move the blank to the left and back. -/
def thereAndBack (i : Nat) : Nat := if i % 2 = 0 then 0 else 2

/-- A shuffle that comes back. -/
theorem shuffle_thereAndBack : Game.solved.shuffle codes thereAndBack = some Game.solved := by
  have draws : (List.range 1000).map thereAndBack = (List.replicate 500 [0, 2]).flatten := by
    decide +kernel
  rw [Game.shuffle, draws]
  exact run_replicate (by decide) 500

/-- A shuffle that undoes each of its moves deals the solved board. -/
theorem playing_solved : Playing Game.solved :=
  .deal solvedBoard thereAndBack shuffle_thereAndBack

/-- **The win test never passes.** On the games of a run it is right exactly where the board
is not solved. -/
theorem isDone_right_iff (game : Game) (playing : Playing game) :
    (isDone game = true ↔ game.board = solvedBoard) ↔ game.board ≠ solvedBoard := by
  rw [isDone_eq_false playing.legal]
  simp only [Bool.false_eq_true, false_iff, ne_eq]

/-- The solved board is dealt and the win test fails on it. -/
theorem solved_not_done :
    Playing Game.solved ∧ Game.solved.board = solvedBoard ∧ isDone Game.solved = false :=
  ⟨playing_solved, rfl, isDone_eq_false Game.legal_solved⟩

/-- The game after tile 15 is entered on the solved board. -/
def oneMove : Game := ⟨Function.update (Function.update solvedBoard 15 15) 14 0, 2, 3⟩

/-- The game with one move to go is played. -/
theorem playing_oneMove : Playing oneMove :=
  .turn [15] playing_solved (isDone_eq_false Game.legal_solved)
    (by decide : getMove Game.solved [15] = some (1, [])) (by decide)

/-- The test is right for the game with one move to go. -/
theorem isDone_right_oneMove : isDone oneMove = true ↔ oneMove.board = solvedBoard :=
  (isDone_right_iff oneMove playing_oneMove).2 (by decide)

end Puzzle

end CPrograms.Puzzle15
