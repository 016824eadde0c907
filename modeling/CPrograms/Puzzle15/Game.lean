import CPrograms.Library.Runs
import CPrograms.Puzzle15.Board

/-!
# Games with move codes

The two puzzle programs keep the same state, a board with the column and the row of the
blank, and differ in the numbers they give to the four directions and in the order in
which they offer them. What they do with a direction is written here once, for any such
scheme of codes; a scheme is sound when the codes offered at a cell lead exactly to its
neighbours. Over a sound scheme every operation is a slide of the hole of a tiling.
-/

namespace CPrograms.Puzzle15

open CPrograms.Library

/-- The members of `p15` and of `Puzzle`: the board, and the column and row of the blank. -/
structure Game where
  board : Board
  x : Int
  y : Int

instance : DecidableEq Game := fun a b =>
  decidable_of_iff (a.board = b.board ∧ a.x = b.x ∧ a.y = b.y) (by
    cases a
    cases b
    exact (Game.mk.injEq ..).symm.to_iff)

/-- A numbering of the directions: where a code takes a blank from column `x` and row `y`,
and the codes offered there, in order. -/
structure Codes where
  displace : Int → Int → Int → Int × Int
  offered : Int → Int → List Int

namespace Game

/-- The body shared by `p15::move` and `Puzzle::makeMove`. -/
def move (codes : Codes) (game : Game) (d : Int) : Option Game :=
  let t := game.x + game.y * 4
  let (x, y) := codes.displace d game.x game.y
  (shiftTile game.board t (x + y * 4)).map fun board => ⟨board, x, y⟩

/-- The loop shared by `p15::getTiles` and `Puzzle::printMoveMess`: the tiles the codes
would move. -/
def tiles (codes : Codes) (game : Game) (v : List Int) : Option (List Int) :=
  v.mapM fun d =>
    let (x, y) := codes.displace d game.x game.y
    (index? (x + y * 4)).map game.board

/-- One round of the shuffling loop, with the number drawn by `rand()`. -/
def shuffleStep (codes : Codes) (game : Game) (drawn : Nat) : Option Game :=
  let v := codes.offered game.x game.y
  v[drawn % v.length]?.bind (game.move codes)

/-- The 1000 rounds of the shuffling loop. -/
def shuffle (codes : Codes) (rand : Nat → Nat) (game : Game) : Option Game :=
  run (shuffleStep codes) game ((List.range 1000).map rand)

/-- Play a direction that is on offer. -/
def playCode (codes : Codes) (game : Game) (d : Int) : Option Game :=
  if d ∈ codes.offered game.x game.y then game.move codes d else none

/-- Play the direction that stands where the chosen tile stands among the tiles offered. -/
def playTile (codes : Codes) (game : Game) (z : Int) : Option Game := do
  let v := codes.offered game.x game.y
  let p ← game.tiles codes v
  let i ← p.findIdx? (· == z)
  let d ← v[i]?
  game.move codes d

/-- The solved board with the blank in the last cell. -/
def solved : Game := ⟨solvedBoard, 3, 3⟩

/-- The game that shows a tiling. -/
def ofTiling (p : Tiling) : Game := ⟨shown p, column p.hole, row p.hole⟩

/-- A game that shows a tiling which slides can reach. -/
def Legal (game : Game) : Prop := ∃ p, Fair p ∧ game = ofTiling p

/-- The solved game is legal. -/
theorem legal_solved : Legal solved := ⟨home, fair_home, rfl⟩

/-- The sign of the board relative to the solved one is fixed by where the blank is. -/
def Balanced (game : Game) : Prop :=
  (0 ≤ game.x ∧ game.x ≤ 3) ∧ (0 ≤ game.y ∧ game.y ≤ 3) ∧
    (∃ cell, index? (game.x + game.y * 4) = some cell ∧ game.board cell = 0) ∧
    ∃ σ : Equiv.Perm (Fin 16), (∀ i, game.board i = solvedBoard (σ i)) ∧
      (Equiv.Perm.sign σ : ℤ) = (-1) ^ ((3 - game.x) + (3 - game.y)).toNat

/-- The colour of a cell, from its distance to the last one. -/
theorem colour_eq_pow (cell : Fin 16) :
    (colour cell : ℤ) = (-1) ^ ((3 - column cell) + (3 - row cell)).toNat := by
  revert cell
  decide

/-- The games that show reachable tilings are the balanced ones. -/
theorem legal_iff_balanced (game : Game) : Legal game ↔ Balanced game := by
  constructor
  · rintro ⟨p, fair, rfl⟩
    have blank := shown_hole fair
    obtain ⟨σ, board, -, sign⟩ := fair
    have xRange : ∀ cell, 0 ≤ column cell ∧ column cell ≤ 3 := by decide
    have yRange : ∀ cell, 0 ≤ row cell ∧ row cell ≤ 3 := by decide
    refine ⟨xRange _, yRange _, ⟨p.hole, index?_cell _, blank⟩, σ, ?_, ?_⟩
    · intro i
      simp only [ofTiling, shown, board]
    · rw [sign, colour_eq_pow]
      rfl
  · rintro ⟨xRange, -, ⟨cell, place, blank⟩, σ, board, sign⟩
    obtain ⟨atX, atY⟩ := cell_of_index? xRange place
    refine ⟨⟨σ, cell⟩, ⟨σ, rfl, ?_, ?_⟩, ?_⟩
    · rw [board] at blank
      exact solvedBoard_eq_zero blank
    · rw [atX, atY, ← colour_eq_pow] at sign
      exact Units.ext sign
    · cases game
      simp only [ofTiling, Game.mk.injEq]
      exact ⟨funext board, atX, atY⟩

end Game

namespace Codes

/-- The codes offered at a cell, each with the cell it leads to. -/
def targets (codes : Codes) (cell : Fin 16) : List (Int × Fin 16) :=
  (codes.offered (column cell) (row cell)).filterMap fun d =>
    let (x, y) := codes.displace d (column cell) (row cell)
    (index? (x + y * 4)).map fun target => (d, target)

/-- At every cell the codes offered stay on the board and lead to all its neighbours. -/
structure Sound (codes : Codes) : Prop where
  offered_eq : ∀ cell, codes.offered (column cell) (row cell) = (codes.targets cell).map Prod.fst
  displace_eq : ∀ cell, ∀ entry ∈ codes.targets cell,
    codes.displace entry.1 (column cell) (row cell) = (column entry.2, row entry.2)
  adjacent_iff : ∀ cell target, Adjacent cell target ↔
    target ∈ (codes.targets cell).map Prod.snd

variable {codes : Codes}

/-- What is offered is next to the hole. -/
theorem Sound.adjacent (sound : codes.Sound) {cell : Fin 16} {entry : Int × Fin 16}
    (offered : entry ∈ codes.targets cell) : Adjacent cell entry.2 :=
  (sound.adjacent_iff cell entry.2).2 (List.mem_map_of_mem offered)

/-- What is next to the hole is offered. -/
theorem Sound.exists_target (sound : codes.Sound) {cell target : Fin 16}
    (near : Adjacent cell target) : ∃ d, (d, target) ∈ codes.targets cell := by
  obtain ⟨⟨d, _⟩, offered, rfl⟩ := List.mem_map.1 ((sound.adjacent_iff cell target).1 near)
  exact ⟨d, offered⟩

/-- Every code that is offered has a target. -/
theorem Sound.exists_of_offered (sound : codes.Sound) {cell : Fin 16} {d : Int}
    (offered : d ∈ codes.offered (column cell) (row cell)) :
    ∃ target, (d, target) ∈ codes.targets cell := by
  rw [sound.offered_eq] at offered
  obtain ⟨⟨_, target⟩, member, rfl⟩ := List.mem_map.1 offered
  exact ⟨target, member⟩

/-- Something is always offered. -/
theorem Sound.targets_ne_nil (sound : codes.Sound) (cell : Fin 16) :
    codes.targets cell ≠ [] := by
  have neighbour : ∀ cell, ∃ target, Adjacent cell target := by decide
  obtain ⟨target, near⟩ := neighbour cell
  obtain ⟨d, offered⟩ := sound.exists_target near
  exact List.ne_nil_of_mem offered

end Codes

namespace Game

variable {codes : Codes}

/-! ## One move -/

/-- Moving by an offered code slides the hole to the cell the code leads to. -/
theorem move_ofTiling (sound : codes.Sound) {p : Tiling} (fair : Fair p) {entry : Int × Fin 16}
    (offered : entry ∈ codes.targets p.hole) :
    (ofTiling p).move codes entry.1 = some (ofTiling (p.slide entry.2)) := by
  have target := sound.displace_eq _ _ offered
  simp only [move, ofTiling, target, shiftTile_shown fair, Option.map_some, Holed.slide_hole]

/-- A slide that is offered is fair. -/
theorem fair_slide (sound : codes.Sound) {p : Tiling} (fair : Fair p) {entry : Int × Fin 16}
    (offered : entry ∈ codes.targets p.hole) : Fair (p.slide entry.2) :=
  fair.reach (.single ⟨entry.2, sound.adjacent offered, rfl⟩)

/-- An offered direction is played by a legal move. -/
theorem Legal.playCode (sound : codes.Sound) {game : Game} (legal : Legal game) {d : Int}
    (offered : d ∈ codes.offered game.x game.y) :
    ∃ next, game.move codes d = some next ∧ Legal next := by
  obtain ⟨p, fair, rfl⟩ := legal
  obtain ⟨target, offered⟩ := sound.exists_of_offered offered
  exact ⟨_, move_ofTiling sound fair offered, _, fair_slide sound fair offered, rfl⟩

/-- A move by its code keeps the game legal. -/
theorem playCode_keeps (sound : codes.Sound) (game : Game) (d : Int) (next : Game)
    (legal : Legal game) (played : game.playCode codes d = some next) : Legal next := by
  unfold Game.playCode at played
  split at played
  · rename_i offered
    obtain ⟨after, moved, legal⟩ := legal.playCode sound offered
    rw [moved, Option.some.injEq] at played
    exact played ▸ legal
  · cases played

/-- Every slide of the hole is a direction on offer. -/
theorem exists_playCode (sound : codes.Sound) {p : Tiling} (fair : Fair p) {cell : Fin 16}
    (near : Adjacent p.hole cell) :
    ∃ d, (ofTiling p).playCode codes d = some (ofTiling (p.slide cell)) := by
  obtain ⟨d, offered⟩ := sound.exists_target near
  refine ⟨d, ?_⟩
  have listed : d ∈ codes.offered (ofTiling p).x (ofTiling p).y := by
    change d ∈ codes.offered (column p.hole) (row p.hole)
    rw [sound.offered_eq]
    exact List.mem_map_of_mem (f := Prod.fst) offered
  rw [Game.playCode, if_pos listed]
  exact move_ofTiling sound fair offered

/-- What slides reach, played directions reach. -/
theorem exists_run_playCode (sound : codes.Sound) {p q : Tiling} (fair : Fair p)
    (reach : Holed.Reach Adjacent p q) :
    ∃ ds, run (playCode codes) (ofTiling p) ds = some (ofTiling q) := by
  induction reach with
  | refl => exact ⟨[], rfl⟩
  | tail reach step ih =>
      obtain ⟨ds, ran⟩ := ih
      obtain ⟨cell, near, rfl⟩ := step
      obtain ⟨d, played⟩ := exists_playCode sound (fair.reach reach) near
      refine ⟨ds ++ [d], ?_⟩
      rw [run_append, ran, Option.bind_some, run_cons, played]
      rfl

/-- The games reached from the solved one by playing offered directions are the legal ones. -/
theorem exists_run_iff_legal (sound : codes.Sound) (game : Game) :
    (∃ ds, run (playCode codes) solved ds = some game) ↔ Legal game := by
  constructor
  · rintro ⟨ds, ran⟩
    exact run_invariant (playCode_keeps sound) legal_solved ran
  · rintro ⟨p, fair, rfl⟩
    exact exists_run_playCode sound fair_home ((reach_home_iff p).2 fair)

/-! ## Shuffling -/

/-- A round of shuffling never leaves the board. -/
theorem Legal.shuffleStep (sound : codes.Sound) {game : Game} (legal : Legal game)
    (drawn : Nat) : ∃ next, game.shuffleStep codes drawn = some next ∧ Legal next := by
  have nonempty : 0 < (codes.offered game.x game.y).length := by
    obtain ⟨p, -, rfl⟩ := legal
    change 0 < (codes.offered (column p.hole) (row p.hole)).length
    rw [sound.offered_eq, List.length_map]
    exact List.length_pos_of_ne_nil (sound.targets_ne_nil _)
  have inside := Nat.mod_lt drawn nonempty
  obtain ⟨next, moved, legal⟩ := legal.playCode sound (List.getElem_mem inside)
  refine ⟨next, ?_, legal⟩
  rw [Game.shuffleStep, List.getElem?_eq_getElem inside]
  exact moved

/-- Shuffling succeeds and keeps the game legal. -/
theorem Legal.shuffles (sound : codes.Sound) {game : Game} (legal : Legal game)
    (draws : List Nat) : ∃ next, run (Game.shuffleStep codes) game draws = some next ∧
      Legal next := by
  induction draws generalizing game with
  | nil => exact ⟨game, rfl, legal⟩
  | cons drawn draws ih =>
      obtain ⟨next, stepped, legal⟩ := legal.shuffleStep sound drawn
      rw [run_cons, stepped]
      exact ih legal

/-- Every shuffle of a legal game ends in a legal game. -/
theorem Legal.shuffle (sound : codes.Sound) {game : Game} (legal : Legal game)
    (rand : Nat → Nat) : ∃ next, game.shuffle codes rand = some next ∧ Legal next :=
  legal.shuffles sound _

/-! ## Choosing a tile -/

/-- The tiles offered are the contents of the cells the codes lead to. -/
theorem tiles_ofTiling (sound : codes.Sound) (p : Tiling) :
    (ofTiling p).tiles codes (codes.offered (column p.hole) (row p.hole)) =
      some ((codes.targets p.hole).map fun entry => shown p entry.2) := by
  rw [sound.offered_eq]
  have displaced := sound.displace_eq p.hole
  generalize codes.targets p.hole = entries at displaced ⊢
  induction entries with
  | nil => rfl
  | cons entry entries ih =>
      have first := displaced entry List.mem_cons_self
      have rest := ih fun other member => displaced other (List.mem_cons_of_mem _ member)
      simp only [tiles, ofTiling] at rest ⊢
      simp only [List.map_cons, List.mapM_cons, first, index?_cell, rest]
      rfl

/-- Every direction on offer has its tile. -/
theorem Legal.tiles (sound : codes.Sound) {game : Game} (legal : Legal game) :
    ∃ p, game.tiles codes (codes.offered game.x game.y) = some p ∧
      p.length = (codes.offered game.x game.y).length := by
  obtain ⟨p, -, rfl⟩ := legal
  refine ⟨_, tiles_ofTiling sound p, ?_⟩
  change _ = (codes.offered (column p.hole) (row p.hole)).length
  rw [sound.offered_eq, List.length_map, List.length_map]

/-- The tiles offered are those next to the hole. -/
theorem mem_tiles_iff (sound : codes.Sound) (p : Tiling) :
    ∃ offered, (ofTiling p).tiles codes (codes.offered (column p.hole) (row p.hole)) =
      some offered ∧ ∀ z, z ∈ offered ↔ ∃ cell, Adjacent p.hole cell ∧ shown p cell = z := by
  refine ⟨_, tiles_ofTiling sound p, fun z => ?_⟩
  rw [List.mem_map]
  constructor
  · rintro ⟨entry, member, tile⟩
    exact ⟨entry.2, sound.adjacent member, tile⟩
  · rintro ⟨cell, near, tile⟩
    obtain ⟨d, member⟩ := sound.exists_target near
    exact ⟨(d, cell), member, tile⟩

/-- Looking a value up in one list and reading the other at its place is a search in the
list of pairs. -/
theorem getElem?_findIdx?_map {A B : Type} (pairs : List (A × B)) (f : B → Int) (z : Int) :
    (((pairs.map fun pair => f pair.2).findIdx? (· == z)).bind fun i =>
      (pairs.map Prod.fst)[i]?) = (pairs.find? fun pair => f pair.2 == z).map Prod.fst := by
  induction pairs with
  | nil => rfl
  | cons pair pairs ih =>
      by_cases here : f pair.2 = z
      · simp [List.findIdx?_cons, here]
      · simp only [List.map_cons, List.findIdx?_cons, beq_eq_false_iff_ne.2 here,
          Bool.false_eq_true, if_false, List.find?_cons, ← ih]
        cases (pairs.map fun pair => f pair.2).findIdx? (· == z) <;> rfl

/-- Choosing a tile is a slide to the neighbour that holds it, or nothing. -/
theorem playTile_ofTiling (sound : codes.Sound) {p : Tiling} (fair : Fair p) (z : Int) :
    (ofTiling p).playTile codes z =
      ((codes.targets p.hole).find? fun entry => shown p entry.2 == z).map
        fun entry => ofTiling (p.slide entry.2) := by
  have choice := getElem?_findIdx?_map (codes.targets p.hole) (shown p) z
  have tiles := tiles_ofTiling sound p
  have offered := sound.offered_eq p.hole
  unfold playTile
  change ((ofTiling p).tiles codes (codes.offered (column p.hole) (row p.hole))).bind _ = _
  rw [tiles, Option.bind_some]
  change Option.bind _ (fun i =>
    Option.bind (codes.offered (column p.hole) (row p.hole))[i]? _) = _
  rw [← Option.bind_assoc, offered, choice]
  cases found : (codes.targets p.hole).find? fun entry => shown p entry.2 == z with
  | none => rfl
  | some entry => exact move_ofTiling sound fair (List.mem_of_find?_eq_some found)

/-- Where the tile stands among those offered, and the direction there: it stands nowhere, or
the direction is played. -/
theorem Legal.choose (sound : codes.Sound) {game : Game} (legal : Legal game) :
    ∃ p, game.tiles codes (codes.offered game.x game.y) = some p ∧ ∀ z,
      (p.findIdx? (· == z) = none ∧ game.playTile codes z = none) ∨
        ∃ i d next, p.findIdx? (· == z) = some i ∧ (codes.offered game.x game.y)[i]? = some d ∧
          game.move codes d = some next ∧ game.playTile codes z = some next := by
  obtain ⟨p, tiles, length⟩ := legal.tiles sound
  refine ⟨p, tiles, fun z => ?_⟩
  have played : game.playTile codes z = (p.findIdx? (· == z)).bind fun i =>
      (codes.offered game.x game.y)[i]?.bind (game.move codes) := by
    change (game.tiles codes (codes.offered game.x game.y)).bind _ = _
    rw [tiles]
    rfl
  cases found : p.findIdx? (· == z) with
  | none => exact .inl ⟨rfl, by rw [played, found, Option.bind_none]⟩
  | some i =>
      obtain ⟨inside, -⟩ := List.findIdx?_eq_some_iff_getElem.mp found
      rw [length] at inside
      obtain ⟨next, moved, -⟩ := legal.playCode sound (List.getElem_mem inside)
      have direction := List.getElem?_eq_getElem inside
      refine .inr ⟨i, _, next, rfl, direction, moved, ?_⟩
      rw [played, found, Option.bind_some, direction, Option.bind_some, moved]

/-- The chosen tile is on a neighbour of the hole, and that neighbour becomes the hole. -/
theorem playTile_eq_some_iff (sound : codes.Sound) {p : Tiling} (fair : Fair p) (z : Int)
    (next : Game) : (ofTiling p).playTile codes z = some next ↔
      ∃ cell, Adjacent p.hole cell ∧ shown p cell = z ∧ next = ofTiling (p.slide cell) := by
  rw [playTile_ofTiling sound fair, Option.map_eq_some_iff]
  constructor
  · rintro ⟨entry, found, rfl⟩
    have named := List.find?_some found
    rw [beq_iff_eq] at named
    exact ⟨entry.2, sound.adjacent (List.mem_of_find?_eq_some found), named, rfl⟩
  · rintro ⟨cell, near, rfl, rfl⟩
    obtain ⟨d, offered⟩ := sound.exists_target near
    have isSome : ((codes.targets p.hole).find? fun entry =>
        shown p entry.2 == shown p cell).isSome := by
      rw [List.find?_isSome]
      exact ⟨(d, cell), offered, beq_self_eq_true _⟩
    obtain ⟨entry, found⟩ := Option.isSome_iff_exists.1 isSome
    have named := List.find?_some found
    rw [beq_iff_eq] at named
    exact ⟨entry, found, by rw [shown_injective fair named]⟩

/-- A move by its tile keeps the game legal. -/
theorem playTile_keeps (sound : codes.Sound) (game : Game) (z : Int) (next : Game)
    (legal : Legal game) (played : game.playTile codes z = some next) : Legal next := by
  obtain ⟨p, fair, rfl⟩ := legal
  obtain ⟨cell, near, -, rfl⟩ := (playTile_eq_some_iff sound fair z next).1 played
  exact ⟨_, fair.reach (.single ⟨cell, near, rfl⟩), rfl⟩

/-- Two sound schemes of codes play a tile the same way. -/
theorem playTile_eq {other : Codes} (sound : codes.Sound) (sound' : other.Sound) (game : Game)
    (z : Int) (legal : Legal game) : game.playTile codes z = game.playTile other z := by
  obtain ⟨p, fair, rfl⟩ := legal
  apply Option.ext
  intro next
  rw [playTile_eq_some_iff sound fair, playTile_eq_some_iff sound' fair]

end Game

end CPrograms.Puzzle15
