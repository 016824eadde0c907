import CPrograms.Puzzle15.Game

/-!
# The class `p15`

The puzzle of `15-puzzle-1.cpp`. Its move codes are one bit per direction. The states
that legal moves reach are the balanced ones, and every game it deals can be won by
entering tile numbers.
-/

namespace CPrograms.Puzzle15

open CPrograms.Library

namespace P15

/-- The `switch` of `move` and of `getTiles`. -/
def displace (d x y : Int) : Int × Int :=
  if d = 1 then (x, y - 1)
  else if d = 2 then (x + 1, y)
  else if d = 4 then (x, y + 1)
  else if d = 8 then (x - 1, y)
  else (x, y)

/-- The codes pushed for a blank in column `x` and row `y`. -/
def candidates (x y : Int) : List Int :=
  (if x < 3 then [2] else []) ++ (if x > 0 then [8] else []) ++
    (if y < 3 then [4] else []) ++ (if y > 0 then [1] else [])

/-- The numbering of the directions. -/
def codes : Codes := ⟨displace, candidates⟩

/-- The moves of the blank that stay on the board. -/
def getCandidates (game : Game) : List Int := candidates game.x game.y

/-- Move the blank and put the tile it passes in its old cell. -/
def move (game : Game) (d : Int) : Option Game := game.move codes d

/-- The tiles the candidate moves would shift. -/
def getTiles (game : Game) (v : List Int) : Option (List Int) := game.tiles codes v

/-- Reset the board and the blank, whatever they were, and make 1000 random moves. -/
def createBoard (_old : Game) (rand : Nat → Nat) : Option Game :=
  Game.shuffle codes rand ⟨solvedBoard, 3, 3⟩

/-- Read numbers until one is a tile on offer, play it, and leave the other entries. There
is no result while the input has no such number. -/
def getMove (game : Game) : List Int → Option (Game × List Int)
  | [] => none
  | z :: entries => do
      let v := getCandidates game
      let p ← getTiles game v
      match p.findIdx? (· == z) with
      | some i => (v[i]?.bind (move game)).map fun next => (next, entries)
      | none => getMove game entries

/-- The first fifteen cells hold `1..15`. -/
def isDone (game : Game) : Bool :=
  (List.finRange 15).all fun i => game.board i.castSucc == (i : Nat) + 1

/-- The games that occur at the head of the inner loop of `play`: a deal, a later turn, or
the deal that follows a finished game. -/
inductive Playing : Game → Prop where
  | deal (old : Game) (rand : Nat → Nat) {game : Game} :
      createBoard old rand = some game → Playing game
  | turn {game next : Game} (entries : List Int) {rest : List Int} :
      Playing game → isDone game = false → getMove game entries = some (next, rest) →
      Playing next
  | again {game next : Game} (answer : String) (rand : Nat → Nat) :
      Playing game → isDone game = true → answer = "Y" ∨ answer = "y" →
      createBoard game rand = some next → Playing next

/-- One turn of the inner loop in which the entered number is accepted at once. -/
def enter (game : Game) (z : Int) : Option Game :=
  if isDone game then none else (getMove game [z]).map Prod.fst

/-- The codes of the moves are sound. -/
theorem codes_sound : codes.Sound where
  offered_eq := by decide
  displace_eq := by decide
  adjacent_iff := by decide

/-- **The reachable states of the puzzle.** A state is reached from the solved board by
moves on offer exactly when the blank is on the board and holds `0`, and the board is a
permutation whose sign is fixed by the distance of the blank from its corner. -/
theorem reachable_iff_balanced (game : Game) :
    (∃ ds, run (Game.playCode codes) Game.solved ds = some game) ↔ game.Balanced := by
  rw [Game.exists_run_iff_legal codes_sound, Game.legal_iff_balanced]

/-- An entry is played when it is on offer and skipped when it is not. -/
theorem getMove_cons {game : Game} (legal : game.Legal) (z : Int) (entries : List Int) :
    getMove game (z :: entries) =
      match game.playTile codes z with
      | some next => some (next, entries)
      | none => getMove game entries := by
  obtain ⟨p, tiles, choose⟩ := legal.choose codes_sound
  have read : getMove game (z :: entries) = match p.findIdx? (· == z) with
      | some i => ((codes.offered game.x game.y)[i]?.bind (game.move codes)).map
          fun next => (next, entries)
      | none => getMove game entries := by
    change (game.tiles codes (codes.offered game.x game.y)).bind _ = _
    rw [tiles]
    rfl
  rw [read]
  rcases choose z with ⟨absent, refused⟩ | ⟨i, d, next, found, direction, moved, played⟩
  · rw [absent, refused]
  · simp only [found, direction, Option.bind_some, moved, played, Option.map_some]

/-- A move keeps the game legal. -/
theorem getMove_keeps {game next : Game} {entries rest : List Int} (legal : game.Legal)
    (moved : getMove game entries = some (next, rest)) : next.Legal := by
  induction entries with
  | nil => cases moved
  | cons z entries ih =>
      rw [getMove_cons legal] at moved
      cases played : game.playTile codes z with
      | none => exact ih (by simpa only [played] using moved)
      | some after =>
          simp only [played, Option.some.injEq, Prod.mk.injEq] at moved
          exact moved.1 ▸ Game.playTile_keeps codes_sound game z after legal played

/-- The board that is dealt is legal. -/
theorem createBoard_legal (old : Game) (rand : Nat → Nat) :
    ∃ game, createBoard old rand = some game ∧ game.Legal :=
  Game.legal_solved.shuffle codes_sound rand

/-- Every board that is dealt is legal. -/
theorem legal_of_createBoard {old game : Game} {rand : Nat → Nat}
    (dealt : createBoard old rand = some game) : game.Legal := by
  obtain ⟨made, dealt', legal⟩ := createBoard_legal old rand
  rw [dealt, Option.some.injEq] at dealt'
  exact dealt' ▸ legal

/-- Every game of every run of `play` is legal. -/
theorem Playing.legal {game : Game} (playing : Playing game) : game.Legal := by
  induction playing with
  | deal old rand dealt => exact legal_of_createBoard dealt
  | turn entries _ _ moved legal => exact getMove_keeps legal moved
  | again answer rand _ _ _ dealt _ => exact legal_of_createBoard dealt

/-- The win test looks at fifteen cells, and on a tiling they decide the sixteenth. -/
theorem isDone_ofTiling {p : Tiling} (fair : Fair p) :
    isDone (Game.ofTiling p) = true ↔ shown p = solvedBoard := by
  constructor
  · intro done
    apply shown_eq_solvedBoard_of_front fair
    intro i early
    have inFront : (i : Nat) < 15 := by omega
    rw [isDone, List.all_eq_true] at done
    exact beq_iff_eq.1 (done ⟨i, inFront⟩ (List.mem_finRange _))
  · intro same
    rw [Game.ofTiling, same]
    rfl

/-- From every fair tiling the offered tile numbers lead to the win. -/
theorem exists_run_enter {p : Tiling} (fair : Fair p) (reach : Holed.Reach Adjacent p home) :
    ∃ zs final, run enter (Game.ofTiling p) zs = some final ∧ isDone final = true := by
  induction reach using Relation.ReflTransGen.head_induction_on with
  | refl => exact ⟨[], _, rfl, (isDone_ofTiling fair).2 rfl⟩
  | @head p q step _ ih =>
      by_cases done : isDone (Game.ofTiling p) = true
      · exact ⟨[], _, rfl, done⟩
      · obtain ⟨cell, near, rfl⟩ := step
        have legal : (Game.ofTiling p).Legal := ⟨p, fair, rfl⟩
        have played := (Game.playTile_eq_some_iff codes_sound fair (shown p cell) _).2
          ⟨cell, near, rfl, rfl⟩
        obtain ⟨zs, final, ran, won⟩ := ih (fair.reach (.single ⟨cell, near, rfl⟩))
        refine ⟨shown p cell :: zs, final, ?_, won⟩
        rw [run_cons, enter, if_neg done, getMove_cons legal, played]
        exact ran

/-- **Every game dealt can be won.** Dealing never fails, and from every game that occurs
in a run of `play` some tile numbers, each accepted when it is entered, lead to a game that
passes the win test; the test passes exactly on the solved board. -/
theorem playing_winnable :
    (∀ old rand, ∃ game, createBoard old rand = some game) ∧
      ∀ game, Playing game →
        (∃ zs final, run enter game zs = some final ∧ isDone final = true) ∧
          (isDone game = true ↔ game.board = solvedBoard) := by
  constructor
  · intro old rand
    obtain ⟨game, dealt, -⟩ := createBoard_legal old rand
    exact ⟨game, dealt⟩
  · intro game playing
    obtain ⟨p, fair, rfl⟩ := playing.legal
    exact ⟨exists_run_enter fair fair.reach_home, isDone_ofTiling fair⟩

/-- Draws that move the blank left and back until the last two move it left and up. -/
def leftAndUp (i : Nat) : Nat := if i < 998 then 0 else 2

/-- The game those draws deal. -/
def leftAndUpGame : Game :=
  ⟨Function.update (Function.update (Function.update solvedBoard 15 15) 14 11) 10 0, 2, 2⟩

/-- The board dealt by a move to the left and one up. -/
theorem createBoard_leftAndUp : createBoard Game.solved leftAndUp = some leftAndUpGame := by
  have draws : (List.range 1000).map leftAndUp =
      (List.replicate 499 [0, 0]).flatten ++ [2, 2] := by
    decide +kernel
  rw [createBoard, Game.shuffle, draws, run_append]
  have back := run_replicate (by decide : run (Game.shuffleStep codes) Game.solved [0, 0] =
    some Game.solved) 499
  rw [show (⟨solvedBoard, 3, 3⟩ : Game) = Game.solved from rfl, back]
  decide

/-- The board after two moves can be won. -/
theorem leftAndUpGame_winnable :
    ∃ zs final, run enter leftAndUpGame zs = some final ∧ isDone final = true :=
  (playing_winnable.2 leftAndUpGame (.deal Game.solved leftAndUp createBoard_leftAndUp)).1

end P15

end CPrograms.Puzzle15
