import CPrograms.Library.Prompt
import CPrograms.Puzzle15.Puzzle

/-!
# Asking for a tile

The loops of `p15::getMove` and `Puzzle::getMove`, for any way of reading a number. Both
are prompts that accept the tiles next to the blank. `Puzzle::getMove` searches a list that
grows by the offered tiles at every round, and indexes another list that does not; since
the search finds the first place, the growth makes no difference.

Read from `std::cin`, an entry that is no number makes the stream fail. Neither program
clears the stream, so it asks for ever.
-/

namespace CPrograms.Puzzle15

open CPrograms.Library

/-! ## Sliding a tile -/

namespace Game

/-- A tile next to the blank slides into it. -/
def Slides (game : Game) (tile : Int) (next : Game) : Prop :=
  ∃ blank cell, index? (game.x + game.y * 4) = some blank ∧ game.board blank = 0 ∧
    Adjacent blank cell ∧ game.board cell = tile ∧
    next = ⟨Function.update (Function.update game.board blank tile) cell 0, column cell, row cell⟩

/-- The tile is next to the blank. -/
def Offers (game : Game) (tile : Int) : Prop := ∃ next, game.Slides tile next

/-- The tiles that slide are those next to the hole. -/
theorem slides_ofTiling {p : Tiling} (fair : Fair p) (tile : Int) (next : Game) :
    (ofTiling p).Slides tile next ↔
      ∃ cell, Adjacent p.hole cell ∧ shown p cell = tile ∧ next = ofTiling (p.slide cell) := by
  have slid : ∀ cell, ofTiling (p.slide cell) =
      ⟨Function.update (Function.update (shown p) p.hole (shown p cell)) cell 0, column cell,
        row cell⟩ := by
    intro cell
    have shifted := shiftTile_shown fair cell
    simp only [shiftTile, index?_cell, Option.bind_eq_bind, Option.bind_some,
      Option.some.injEq] at shifted
    rw [ofTiling, ← shifted]
    rfl
  have hole : index? ((ofTiling p).x + (ofTiling p).y * 4) = some p.hole := index?_cell _
  constructor
  · rintro ⟨blank, cell, place, -, near, rfl, rfl⟩
    rw [hole, Option.some.injEq] at place
    subst place
    exact ⟨cell, near, rfl, (slid cell).symm⟩
  · rintro ⟨cell, near, rfl, rfl⟩
    exact ⟨p.hole, cell, hole, shown_hole fair, near, rfl, slid cell⟩

/-- A sound program plays a tile by sliding it. -/
theorem playTile_iff_slides {codes : Codes} (sound : codes.Sound) {game : Game}
    (legal : game.Legal) (tile : Int) (next : Game) :
    game.playTile codes tile = some next ↔ game.Slides tile next := by
  obtain ⟨p, fair, rfl⟩ := legal
  rw [playTile_eq_some_iff sound fair, slides_ofTiling fair]

/-- A tile is refused exactly if it is not offered. -/
theorem playTile_eq_none_iff {codes : Codes} (sound : codes.Sound) {game : Game}
    (legal : game.Legal) (tile : Int) : game.playTile codes tile = none ↔ ¬ game.Offers tile := by
  rw [Offers, Option.eq_none_iff_forall_ne_some, not_exists]
  exact forall_congr' fun next => not_congr (playTile_iff_slides sound legal tile next)

/-- The tiles a sound program offers are those next to the blank. -/
theorem mem_tiles_iff_offers {codes : Codes} (sound : codes.Sound) {game : Game}
    (legal : game.Legal) {tiles : List Int}
    (listed : game.tiles codes (codes.offered game.x game.y) = some tiles) (tile : Int) :
    tile ∈ tiles ↔ game.Offers tile := by
  obtain ⟨p, fair, rfl⟩ := legal
  obtain ⟨offered, listed', members⟩ := mem_tiles_iff sound p
  cases Option.some.inj (listed.symm.trans listed')
  rw [members, Offers]
  constructor
  · rintro ⟨cell, near, same⟩
    exact ⟨_, (slides_ofTiling fair tile _).mpr ⟨cell, near, same, rfl⟩⟩
  · rintro ⟨next, slides⟩
    obtain ⟨cell, near, same, -⟩ := (slides_ofTiling fair tile next).mp slides
    exact ⟨cell, near, same⟩

/-- A tile slides in one way only. -/
theorem Slides.unique {game : Game} (legal : game.Legal) {tile : Int} {first second : Game}
    (slides : game.Slides tile first) (slidesToo : game.Slides tile second) : first = second := by
  obtain ⟨p, fair, rfl⟩ := legal
  obtain ⟨cell, -, same, rfl⟩ := (slides_ofTiling fair tile first).mp slides
  obtain ⟨cell', -, same', rfl⟩ := (slides_ofTiling fair tile second).mp slidesToo
  rw [shown_injective fair (same.trans same'.symm)]

/-- The blank is not offered. -/
theorem not_offers_zero {game : Game} (legal : game.Legal) : ¬ game.Offers 0 := by
  obtain ⟨p, fair, rfl⟩ := legal
  rintro ⟨next, slides⟩
  obtain ⟨cell, near, blank, -⟩ := (slides_ofTiling fair 0 next).mp slides
  have atHole := shown_injective fair (blank.trans (shown_hole fair).symm)
  have apart : ∀ cell, ¬ Adjacent cell cell := by decide
  exact apart p.hole (atHole ▸ near)

/-- The number of a tile is an `int`. -/
theorem Offers.fitsInt {game : Game} (legal : game.Legal) {tile : Int} (offers : game.Offers tile) :
    FitsInt tile := by
  obtain ⟨p, fair, rfl⟩ := legal
  obtain ⟨next, slides⟩ := offers
  obtain ⟨cell, -, rfl, -⟩ := (slides_ofTiling fair tile next).mp slides
  have fits : ∀ i, FitsInt (solvedBoard i) := by decide
  exact fits (p.board cell)

end Game

/-! ## The prompt of `p15` -/

namespace P15

variable {Input : Type}

/-- Where `getMove` is: at the head of its loop, or back at the caller after a move. -/
inductive Turn (Input : Type) where
  | asking (game : Game) (input : Input)
  | moved (game : Game) (input : Input)

/-- One round of the loop of `getMove`. -/
def getMoveStep (read : Input → Option (Int × Input)) : Turn Input → Option (Turn Input)
  | .asking game input => do
      let v := getCandidates game
      let p ← getTiles game v
      let (z, input) ← read input
      match p.findIdx? (· == z) with
      | some i => (v[i]?.bind (move game)).map fun next => .moved next input
      | none => some (.asking game input)
  | .moved _ _ => none

/-- The loop as a prompt that is answered by the next game. -/
def ofPrompt (game : Game) : Prompt Input Game → Turn Input
  | .asking _ input => .asking game input
  | .answered next input => .moved next input

/-- The loop of `getMove` is a prompt. -/
theorem getMoveStep_ofPrompt {game : Game} (legal : game.Legal)
    (read : Input → Option (Int × Input)) (state : Prompt Input Game) :
    getMoveStep read (ofPrompt game state) =
      (Prompt.step read (game.playTile codes) state).map (ofPrompt game) := by
  cases state with
  | answered next input => rfl
  | asking refused input =>
      obtain ⟨p, tiles, choose⟩ := legal.choose codes_sound
      change (game.tiles codes (codes.offered game.x game.y)).bind _ = _
      rw [tiles, Option.bind_some]
      cases taken : read input with
      | none => simp only [Prompt.step, taken]; rfl
      | some entry =>
          obtain ⟨z, input⟩ := entry
          simp only [Prompt.step, taken, Option.map_some, Option.bind_eq_bind, Option.bind_some]
          rcases choose z with ⟨absent, refuses⟩ | ⟨i, d, next, found, direction, moved, played⟩
          · simp only [absent, refuses]
            rfl
          · have turned : (getCandidates game)[i]?.bind (move game) = some next := by
              change ((codes.offered game.x game.y)[i]?).bind (game.move codes) = _
              rw [direction, Option.bind_some, moved]
            simp only [found, played, turned, Option.map_some]
            rfl

/-- A round on a list of entries stops, asks again or moves, and `getMove` goes on accordingly. -/
theorem getMove_round (game : Game) (z : Int) (entries : List Int) :
    (getMoveStep takeEntry (.asking game (z :: entries)) = none ∧
        getMove game (z :: entries) = none) ∨
      (getMoveStep takeEntry (.asking game (z :: entries)) = some (.asking game entries) ∧
        getMove game (z :: entries) = getMove game entries) ∨
      ∃ next, getMoveStep takeEntry (.asking game (z :: entries)) = some (.moved next entries) ∧
        getMove game (z :: entries) = some (next, entries) := by
  cases tiles : getTiles game (getCandidates game) with
  | none => simp [getMoveStep, getMove, tiles]
  | some p =>
      cases found : p.findIdx? (· == z) with
      | none => simp [getMoveStep, getMove, takeEntry, tiles, found]
      | some i =>
          have turns : getMoveStep takeEntry (.asking game (z :: entries)) =
              ((getCandidates game)[i]?.bind (move game)).map (.moved · entries) := by
            simp only [getMoveStep, tiles, takeEntry, Option.bind_eq_bind, Option.bind_some, found]
          have plays : getMove game (z :: entries) =
              ((getCandidates game)[i]?.bind (move game)).map (·, entries) := by
            simp only [getMove, tiles, Option.bind_eq_bind, Option.bind_some, found]
          cases moved : (getCandidates game)[i]?.bind (move game) with
          | none =>
              rw [moved] at turns plays
              exact .inl ⟨turns, plays⟩
          | some next =>
              rw [moved] at turns plays
              exact .inr (.inr ⟨next, turns, plays⟩)

/-- `getMove` on a list of entries is this loop. -/
theorem getMove_eq_some_iff {game next : Game} {entries rest : List Int} :
    getMove game entries = some (next, rest) ↔
      Goes (getMoveStep takeEntry) (.asking game entries) (.moved next rest) := by
  have other : ∀ entries, Turn.asking game entries ≠ .moved next rest := fun _ => nofun
  induction entries with
  | nil =>
      have waits : getMoveStep takeEntry (.asking game []) = none := by
        simp only [getMoveStep, takeEntry, Option.bind_eq_bind, Option.bind_none,
          Option.bind_fun_none]
      rw [goes_iff_of_none waits]
      exact iff_of_false nofun (other _)
  | cons z entries ih =>
      rcases getMove_round game z entries with ⟨stops, result⟩ | ⟨again, result⟩ |
        ⟨after, moves, result⟩
      · rw [result, goes_iff_of_none stops]
        exact iff_of_false nofun (other _)
      · rw [result, goes_iff_of_some again (other _)]
        exact ih
      · rw [result, goes_iff_of_some moves (other _), goes_iff_of_none rfl, Option.some.injEq,
          Prod.mk.injEq, Turn.moved.injEq]

/-- Whatever uninitialised variables hold, `getMove` refuses what stands before a word, with the
game unchanged, and plays the tile that word names. -/
def Recovers (game : Game) (text word : List Char) (later : List (List Char)) (tile : Int) : Prop :=
  ∀ held, ∃ ready next after,
    Goes (getMoveStep Cin.read) (.asking game (.good text held)) (.asking game ready) ∧
      words ready.stream.rest = word :: later ∧
      getMoveStep Cin.read (.asking game ready) = some (.moved next after) ∧
      words after.stream.rest = later ∧ game.Slides tile next

/-- Recovering is reaching the answer of the prompt. -/
theorem recovers_iff_reaches {game : Game} (legal : game.Legal) (text word : List Char)
    (later : List (List Char)) (tile : Int) :
    Recovers game text word later tile ↔
      Prompt.Reaches (game.playTile codes) text word later (game.Slides tile) := by
  have commutes := getMoveStep_ofPrompt legal Cin.read
  constructor
  · intro recovers held
    obtain ⟨ready, next, after, goes, first, stepped, rest, slides⟩ := recovers held
    have goes : Goes _ (ofPrompt game (.asking 0 (Cin.good text held))) _ := goes
    obtain ⟨before, behind, goes, stepped, asked, answered⟩ := goes.step_of_map commutes stepped
    cases before with
    | answered answer input => cases asked
    | asking refused input =>
        cases behind with
        | asking refused input => cases answered
        | answered answer input =>
            cases asked
            cases answered
            exact ⟨refused, ready, next, after, goes, first, stepped, rest, slides⟩
  · intro reaches held
    obtain ⟨refused, ready, next, after, goes, first, stepped, rest, slides⟩ := reaches held
    have moves := commutes (.asking refused ready)
    rw [stepped] at moves
    exact ⟨ready, next, after, goes.map commutes, first, moves, rest, slides⟩

/-- Behind a word that starts with no number `getMove` never gets to a move. -/
theorem not_goes_moved {game : Game} (legal : game.Legal) {text word : List Char}
    {later : List (List Char)} (split : words text = word :: later)
    (malformed : (scanInt word).1 = none) (next : Game) (after : Cin) :
    ¬ Goes (getMoveStep Cin.read) (.asking game (.good text fun _ => 0)) (.moved next after) := by
  intro goes
  have goes : Goes _ (ofPrompt game (.asking 0 (Cin.good text fun _ => 0))) _ := goes
  obtain ⟨state, reached, same⟩ := goes.of_map (getMoveStep_ofPrompt legal Cin.read)
  have zero := (Game.playTile_eq_none_iff codes_sound legal 0).mpr (Game.not_offers_zero legal)
  obtain ⟨refused, input, rfl⟩ := Prompt.asking_of_goes_malformed zero split malformed reached
  cases same

end P15

/-! ## The prompt of `Puzzle` -/

namespace Puzzle

variable {Input : Type}

/-- Where `getMove` is: at the head of its loop, or behind it with the index it found. -/
inductive Search (Input : Type) where
  | asking (m : List Int) (input : Input)
  | left (ind : Int) (input : Input)

/-- One round of the loop of `getMove`. -/
def getMoveStep (read : Input → Option (Int × Input)) (game : Game) :
    Search Input → Option (Search Input)
  | .asking m input => do
      let m ← printMoveMess game (getPossibleMoves game) m
      let (s, input) ← read input
      let ind := findIndex m s
      some (if ind = -1 then .asking m input else .left ind input)
  | .left _ _ => none

/-- The list after some rounds. -/
def copies (tiles : List Int) (rounds : Nat) : List Int :=
  (List.replicate rounds tiles).flatten

/-- One round more shows the tiles once more. -/
theorem copies_succ (tiles : List Int) (rounds : Nat) :
    copies tiles (rounds + 1) = copies tiles rounds ++ tiles := by
  rw [copies, List.replicate_succ', List.flatten_append, List.flatten_singleton, copies]

/-- The first place of a number in several copies is its place in the first one. -/
theorem findIndex_copies (tiles : List Int) (rounds : Nat) (s : Int) :
    findIndex (copies tiles (rounds + 1)) s = findIndex tiles s := by
  have first : copies tiles (rounds + 1) = tiles ++ copies tiles rounds := by
    rw [copies, List.replicate_succ, List.flatten_cons, copies]
  cases found : tiles.findIdx? (· == s) with
  | some i => simp only [findIndex, first, List.findIdx?_append, found, Option.some_or]
  | none =>
      have absent : s ∉ tiles := by
        intro member
        have := List.findIdx?_eq_none_iff.mp found s member
        simp at this
      have nowhere : (copies tiles (rounds + 1)).findIdx? (· == s) = none := by
        rw [List.findIdx?_eq_none_iff]
        intro x member
        obtain ⟨copy, inside, here⟩ := List.mem_flatten.mp member
        rw [List.eq_of_mem_replicate inside] at here
        rw [beq_eq_false_iff_ne]
        rintro rfl
        exact absent here
      simp only [findIndex, nowhere, found]

/-- The index of a tile on offer. -/
def choice (tiles : List Int) (s : Int) : Option Int :=
  (tiles.findIdx? (· == s)).map Nat.cast

/-- The loop as a prompt that is answered by an index. -/
def ofPrompt (tiles : List Int) : Prompt Input Int → Search Input
  | .asking rounds input => .asking (copies tiles rounds) input
  | .answered ind input => .left ind input

/-- The loop of `getMove` is a prompt. -/
theorem getMoveStep_ofPrompt {game : Game} {tiles : List Int}
    (listed : game.tiles codes (getPossibleMoves game) = some tiles)
    (read : Input → Option (Int × Input)) (state : Prompt Input Int) :
    getMoveStep read game (ofPrompt tiles state) =
      (Prompt.step read (choice tiles) state).map (ofPrompt tiles) := by
  cases state with
  | answered ind input => rfl
  | asking rounds input =>
      have grown : printMoveMess game (getPossibleMoves game) (copies tiles rounds) =
          some (copies tiles (rounds + 1)) := by
        rw [printMoveMess, listed, Option.map_some, copies_succ]
      simp only [getMoveStep, ofPrompt, grown, Option.bind_eq_bind, Option.bind_some, Prompt.step]
      cases read input with
      | none => rfl
      | some entry =>
          obtain ⟨s, input⟩ := entry
          simp only [Option.bind_some, Option.map_some, findIndex_copies]
          cases found : tiles.findIdx? (· == s) with
          | none => simp only [findIndex, choice, found, ↓reduceIte, Option.map_none, ofPrompt]
          | some i =>
              have notFound : (i : Int) ≠ -1 := by omega
              simp only [findIndex, choice, found, notFound, ↓reduceIte, Option.map_some, ofPrompt]

/-- A round on a list of entries stops, asks again or leaves the loop, and `getMove` goes on
accordingly. -/
theorem getMoveLoop_round (game : Game) (m : List Int) (s : Int) (entries : List Int) :
    getMoveStep takeEntry game (.asking m (s :: entries)) = none ∨
      (∃ m', getMoveStep takeEntry game (.asking m (s :: entries)) = some (.asking m' entries) ∧
        getMoveLoop game (getPossibleMoves game) m (s :: entries) =
          getMoveLoop game (getPossibleMoves game) m' entries) ∨
      ∃ ind, getMoveStep takeEntry game (.asking m (s :: entries)) = some (.left ind entries) ∧
        getMoveLoop game (getPossibleMoves game) m (s :: entries) =
          ((getPossibleMoves game)[ind.toNat]?).map (·, entries) := by
  cases grown : printMoveMess game (getPossibleMoves game) m with
  | none => simp [getMoveStep, grown]
  | some m' =>
      by_cases absent : findIndex m' s = -1
      · simp [getMoveStep, getMoveLoop, takeEntry, grown, absent]
      · simp [getMoveStep, getMoveLoop, takeEntry, grown, absent]

/-- `getMove` on a list of entries is this loop, and the direction at the index found. -/
theorem getMoveLoop_of_goes {game : Game} {m entries rest : List Int} {ind d : Int}
    (goes : Goes (getMoveStep takeEntry game) (.asking m entries) (.left ind rest))
    (direction : (getPossibleMoves game)[ind.toNat]? = some d) :
    getMoveLoop game (getPossibleMoves game) m entries = some (d, rest) := by
  have other : ∀ m entries, Search.asking m entries ≠ .left ind rest := fun _ _ => nofun
  induction entries generalizing m with
  | nil =>
      have waits : getMoveStep takeEntry game (.asking m []) = none := by
        simp only [getMoveStep, takeEntry, Option.bind_eq_bind, Option.bind_none,
          Option.bind_fun_none]
      exact absurd ((goes_iff_of_none waits).mp goes) (other _ _)
  | cons s entries ih =>
      rcases getMoveLoop_round game m s entries with stops | ⟨m', again, result⟩ |
        ⟨found, leaves, result⟩
      · exact absurd ((goes_iff_of_none stops).mp goes) (other _ _)
      · rw [goes_iff_of_some again (other _ _)] at goes
        rw [result]
        exact ih goes
      · rw [goes_iff_of_some leaves (other _ _), goes_iff_of_none rfl, Search.left.injEq] at goes
        obtain ⟨rfl, rfl⟩ := goes
        rw [result, direction, Option.map_some]

/-- The index of a tile next to the blank is that of the direction which slides it. -/
theorem choose_slides {game : Game} (legal : game.Legal) {tiles : List Int}
    (listed : game.tiles codes (getPossibleMoves game) = some tiles) (tile : Int) :
    (choice tiles tile = none ∧ ¬ game.Offers tile) ∨
      ∃ ind d next, choice tiles tile = some ind ∧
        (0 ≤ ind ∧ ind < (getPossibleMoves game).length) ∧
        (getPossibleMoves game)[ind.toNat]? = some d ∧ makeMove game d = some next ∧
        game.Slides tile next := by
  obtain ⟨p, listed', choose⟩ := legal.choose codes_sound
  cases Option.some.inj (listed.symm.trans listed')
  rcases choose tile with ⟨absent, refuses⟩ | ⟨i, d, next, found, direction, moved, played⟩
  · refine .inl ⟨?_, (Game.playTile_eq_none_iff codes_sound legal tile).mp refuses⟩
    rw [choice, absent, Option.map_none]
  · obtain ⟨inside, -⟩ := List.getElem?_eq_some_iff.mp direction
    refine .inr ⟨i, d, next, ?_, ⟨Int.natCast_nonneg i, Int.ofNat_lt.mpr inside⟩, direction, moved,
      (Game.playTile_iff_slides codes_sound legal tile next).mp played⟩
    rw [choice, found, Option.map_some]

/-- A number is refused exactly if its tile is not offered. -/
theorem choice_eq_none_iff {game : Game} (legal : game.Legal) {tiles : List Int}
    (listed : game.tiles codes (getPossibleMoves game) = some tiles) (tile : Int) :
    choice tiles tile = none ↔ ¬ game.Offers tile := by
  rcases choose_slides legal listed tile with ⟨absent, refused⟩ | ⟨ind, d, next, found, rest⟩
  · exact iff_of_true absent refused
  · exact iff_of_false (by simp [found]) (not_not.mpr ⟨next, rest.2.2.2⟩)

/-- Different directions lead to different places. -/
theorem eq_of_makeMove {game next : Game} {d e : Int} (offered : d ∈ getPossibleMoves game)
    (offeredToo : e ∈ getPossibleMoves game) (moved : makeMove game d = some next)
    (movedToo : makeMove game e = some next) : e = d := by
  have target : ∀ {d}, makeMove game d = some next →
      (next.x, next.y) = displace d game.x game.y := by
    intro d moved
    obtain ⟨board, -, rfl⟩ := Option.map_eq_some_iff.mp moved
    rfl
  have codes : ∀ {d}, d ∈ getPossibleMoves game → d = 1 ∨ d = 2 ∨ d = 3 ∨ d = 4 := by
    intro d offered
    simp only [getPossibleMoves, possibleMoves, List.mem_append] at offered
    grind
  have same := (target moved).symm.trans (target movedToo)
  rcases codes offered with rfl | rfl | rfl | rfl <;>
    rcases codes offeredToo with rfl | rfl | rfl | rfl <;>
    simp [displace] at same ⊢ <;> omega

/-- **`getMove` picks the tile the player named.** On every board that legal moves reach, after
any number of entries that are not offered, the loop is left at the first one that is. Its index
is one of the list of directions, whatever the length of the list it was found in, and the
direction there is the only one that slides the tile into the blank. -/
theorem getMove_picks (game : Game)
    (reachable : ∃ ds, run (Game.playCode codes) Game.solved ds = some game) (tiles : List Int)
    (listed : printMoveMess game (getPossibleMoves game) [] = some tiles)
    (rejected : List Int) (tile : Int) (later : List Int) (others : ∀ s ∈ rejected, s ∉ tiles)
    (offered : tile ∈ tiles) :
    ∃ ind d next,
      Goes (getMoveStep takeEntry game) (.asking [] (rejected ++ tile :: later))
        (.left ind later) ∧
      (0 ≤ ind ∧ ind < (getPossibleMoves game).length) ∧
      (getPossibleMoves game)[ind.toNat]? = some d ∧
      getMove game (rejected ++ tile :: later) = some (d, later) ∧
      makeMove game d = some next ∧ game.Slides tile next ∧
      ∀ e ∈ getPossibleMoves game, ∀ after, makeMove game e = some after →
        game.Slides tile after → e = d := by
  have legal := (Game.exists_run_iff_legal codes_sound game).mp reachable
  have listed : game.tiles codes (getPossibleMoves game) = some tiles := by
    obtain ⟨_, given, rfl⟩ := Option.map_eq_some_iff.mp listed
    exact given
  have offers := Game.mem_tiles_iff_offers codes_sound legal listed
  rcases choose_slides legal listed tile with ⟨-, refused⟩ | ⟨ind, d, next, found, inside,
    direction, moved, slides⟩
  · exact absurd ((offers tile).mp offered) refused
  have refuses : ∀ s ∈ rejected, choice tiles s = none := by
    intro s member
    rw [choice_eq_none_iff legal listed, ← offers]
    exact others s member
  have prompt : Goes (Prompt.step takeEntry (choice tiles))
      (.asking 0 (rejected ++ tile :: later)) (.answered ind later) :=
    (Prompt.goes_entries refuses _ 0).tail (Prompt.step_accepted rfl found _)
  have goes := prompt.map (getMoveStep_ofPrompt listed takeEntry)
  refine ⟨ind, d, next, goes, inside, direction, getMoveLoop_of_goes goes direction, moved, slides,
    ?_⟩
  intro e offeredToo after movedToo slidesToo
  rw [← Game.Slides.unique legal slides slidesToo] at movedToo
  exact eq_of_makeMove (List.mem_of_getElem? direction) offeredToo moved movedToo

/-- Two refused numbers and a tile of the solved board. -/
theorem getMove_picks_solved :
    ∃ ind d next, Goes (getMoveStep takeEntry Game.solved) (.asking [] [99, 1, 12]) (.left ind []) ∧
      ind < (getPossibleMoves Game.solved).length ∧ makeMove Game.solved d = some next ∧
      Game.solved.Slides 12 next := by
  obtain ⟨ind, d, next, goes, inside, -, -, moved, slides, -⟩ := getMove_picks Game.solved ⟨[], rfl⟩
    [15, 12] (by decide) [99, 1] 12 [] (by decide) (by decide)
  exact ⟨ind, d, next, goes, inside.2, moved, slides⟩

/-- Whatever uninitialised variables hold, `getMove` refuses what stands before a word, and the
direction it then returns plays the tile that word names. -/
def Recovers (game : Game) (text word : List Char) (later : List (List Char)) (tile : Int) : Prop :=
  ∀ held, ∃ m ready ind after d next,
    Goes (getMoveStep Cin.read game) (.asking [] (.good text held)) (.asking m ready) ∧
      words ready.stream.rest = word :: later ∧
      getMoveStep Cin.read game (.asking m ready) = some (.left ind after) ∧
      words after.stream.rest = later ∧ (getPossibleMoves game)[ind.toNat]? = some d ∧
      makeMove game d = some next ∧ game.Slides tile next

/-- The direction at an index plays a tile. -/
def Picks (game : Game) (tile ind : Int) : Prop :=
  ∃ d next, (getPossibleMoves game)[ind.toNat]? = some d ∧ makeMove game d = some next ∧
    game.Slides tile next

/-- Recovering is reaching the answer of the prompt. -/
theorem recovers_iff_reaches {game : Game} {tiles : List Int}
    (listed : game.tiles codes (getPossibleMoves game) = some tiles) (text word : List Char)
    (later : List (List Char)) (tile : Int) :
    Recovers game text word later tile ↔
      Prompt.Reaches (choice tiles) text word later (Picks game tile) := by
  have commutes := getMoveStep_ofPrompt listed Cin.read
  constructor
  · intro recovers held
    obtain ⟨m, ready, ind, after, d, next, goes, first, stepped, rest, picks⟩ := recovers held
    have goes : Goes _ (ofPrompt tiles (.asking 0 (Cin.good text held))) _ := goes
    obtain ⟨before, behind, goes, stepped, asked, answered⟩ := goes.step_of_map commutes stepped
    cases before with
    | answered answer input => cases asked
    | asking rounds input =>
        cases behind with
        | asking rounds input => cases answered
        | answered answer input =>
            cases asked
            cases answered
            exact ⟨rounds, ready, ind, after, goes, first, stepped, rest, d, next, picks⟩
  · intro reaches held
    obtain ⟨rounds, ready, ind, after, goes, first, stepped, rest, d, next, picks⟩ := reaches held
    have leaves := commutes (.asking rounds ready)
    rw [stepped] at leaves
    exact ⟨_, ready, ind, after, d, next, goes.map commutes, first, leaves, rest, picks⟩

/-- Behind a word that starts with no number `getMove` never leaves its loop. -/
theorem not_goes_left {game : Game} (legal : game.Legal) {text word : List Char}
    {later : List (List Char)} (split : words text = word :: later)
    (malformed : (scanInt word).1 = none) (ind : Int) (after : Cin) :
    ¬ Goes (getMoveStep Cin.read game) (.asking [] (.good text fun _ => 0)) (.left ind after) := by
  intro goes
  obtain ⟨tiles, listed, -⟩ := legal.tiles codes_sound
  have goes : Goes _ (ofPrompt tiles (.asking 0 (Cin.good text fun _ => 0))) _ := goes
  obtain ⟨state, reached, same⟩ := goes.of_map (getMoveStep_ofPrompt listed Cin.read)
  have zero := (choice_eq_none_iff legal listed 0).mpr (Game.not_offers_zero legal)
  obtain ⟨refused, input, rfl⟩ := Prompt.asking_of_goes_malformed zero split malformed reached
  cases same

end Puzzle

/-! ## Malformed entries -/

/-- **When a prompt gets past an entry.** On every board that legal moves reach and for every
text, a word that names a tile on offer is taken by either program, with all the words before
it refused, exactly when each of those words is read to its end as numbers none of which is on
offer. A word that is no number blocks the prompt. -/
theorem recovers_iff (game : Game)
    (reachable : ∃ ds, run (Game.playCode P15.codes) Game.solved ds = some game)
    (text word : List Char) (front later : List (List Char)) (tile : Int)
    (split : words text = front ++ word :: later) (numeral : Denotes word tile)
    (offered : game.Offers tile) :
    (P15.Recovers game text word later tile ↔
        ∀ entry ∈ front, ∃ ns, Numbers entry ns ∧ ∀ n ∈ ns, ¬ game.Offers n) ∧
      (Puzzle.Recovers game text word later tile ↔
        ∀ entry ∈ front, ∃ ns, Numbers entry ns ∧ ∀ n ∈ ns, ¬ game.Offers n) := by
  have legal := (Game.exists_run_iff_legal P15.codes_sound game).mp reachable
  have fits := offered.fitsInt legal
  constructor
  · have refuses := Game.playTile_eq_none_iff P15.codes_sound legal
    obtain ⟨next, slides⟩ := offered
    have played := (Game.playTile_iff_slides P15.codes_sound legal tile next).mpr slides
    rw [P15.recovers_iff_reaches legal, Prompt.reaches_iff ((refuses 0).mpr
      (Game.not_offers_zero legal)) split numeral.scanInt_eq fits played slides]
    simp only [Prompt.Passes, refuses]
  · obtain ⟨tiles, listed, -⟩ := legal.tiles Puzzle.codes_sound
    have listed : game.tiles Puzzle.codes (Puzzle.getPossibleMoves game) = some tiles := listed
    have refuses := Puzzle.choice_eq_none_iff legal listed
    rcases Puzzle.choose_slides legal listed tile with
      ⟨-, refused⟩ | ⟨ind, d, next, found, -, picks⟩
    · exact absurd offered refused
    · rw [Puzzle.recovers_iff_reaches listed, Prompt.reaches_iff ((refuses 0).mpr
        (Game.not_offers_zero legal)) split numeral.scanInt_eq fits found ⟨d, next, picks⟩]
      simp only [Prompt.Passes, refuses]

/-- The tiles next to the blank of the solved board. -/
theorem offers_solved_iff (tile : Int) : Game.solved.Offers tile ↔ tile ∈ [(15 : Int), 12] :=
  (Game.mem_tiles_iff_offers Puzzle.codes_sound Game.legal_solved
    (by decide : Game.solved.tiles Puzzle.codes _ = some [15, 12]) tile).symm

/-- Numbers that are not on offer, run together or not, are refused. -/
theorem recovers_solved :
    P15.Recovers Game.solved "99 3-4 12 x".toList "12".toList ["x".toList] 12 ∧
      Puzzle.Recovers Game.solved "99 3-4 12 x".toList "12".toList ["x".toList] 12 := by
  obtain ⟨first, second⟩ := recovers_iff Game.solved ⟨[], rfl⟩ "99 3-4 12 x".toList "12".toList
    ["99".toList, "3-4".toList] ["x".toList] 12 (by decide)
    ⟨"12".toList, by decide, by decide, .inl ⟨.inl rfl, by decide⟩⟩
    ((offers_solved_iff 12).mpr (by decide))
  have refused : ∀ entry ∈ ["99".toList, "3-4".toList],
      ∃ ns, Numbers entry ns ∧ ∀ n ∈ ns, ¬ Game.solved.Offers n := by
    have single : Numbers "99".toList [99] := .cons (by decide) (by decide) .nil
    have signed : Numbers "-4".toList [-4] := .cons (by decide) (by decide) .nil
    have chain : Numbers "3-4".toList [3, -4] := .cons (by decide) (by decide) signed
    simp only [offers_solved_iff, List.forall_mem_cons]
    exact ⟨⟨_, single, by decide⟩, ⟨_, chain, by decide⟩, by simp⟩
  exact ⟨first.mpr refused, second.mpr refused⟩

/-- A word that is no number blocks both programs although a tile on offer follows. -/
theorem malformed_blocks :
    words "x 12".toList = ["x".toList, "12".toList] ∧ Denotes "12".toList 12 ∧
      Game.solved.Offers 12 ∧
      (¬ P15.Recovers Game.solved "x 12".toList "12".toList [] 12 ∧
        ∀ next after, ¬ Goes (P15.getMoveStep Cin.read)
          (.asking Game.solved (.good "x 12".toList fun _ => 0)) (.moved next after)) ∧
      (¬ Puzzle.Recovers Game.solved "x 12".toList "12".toList [] 12 ∧
        ∀ ind after, ¬ Goes (Puzzle.getMoveStep Cin.read Game.solved)
          (.asking [] (.good "x 12".toList fun _ => 0)) (.left ind after)) := by
  have split : words "x 12".toList = ["x".toList, "12".toList] := by decide
  have first := P15.not_goes_moved Game.legal_solved split (by decide)
  have second := Puzzle.not_goes_left Game.legal_solved split (by decide)
  refine ⟨split, ⟨"12".toList, by decide, by decide, .inl ⟨.inl rfl, by decide⟩⟩,
    (offers_solved_iff 12).mpr (by decide), ⟨?_, first⟩, ?_, second⟩
  · intro recovers
    obtain ⟨ready, next, after, goes, -, stepped, -⟩ := recovers fun _ => 0
    exact first next after (goes.tail stepped)
  · intro recovers
    obtain ⟨m, ready, ind, after, d, next, goes, -, stepped, -⟩ := recovers fun _ => 0
    exact second ind after (goes.tail stepped)

end CPrograms.Puzzle15
