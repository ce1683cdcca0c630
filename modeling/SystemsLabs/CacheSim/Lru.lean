/-
# SystemsLabs.CacheSim.Lru -- which replacements are those of an LRU cache

The reference is a list of the blocks of a set, the least recently used one first
(`lruAccess`).  As long as `LRU` is the index of the line with that block whenever a line is
replaced (`PicksLru`), both hold the same blocks and classify every access alike
(`Fills.guided`).  The simulator only ever sets `LRU` to 0 or 1.  With at most two lines that
is the one not used last (`NotLast`); with more it need not be (`exists_unlike`).
-/
import SystemsLabs.CacheSim.Filling

namespace SystemsLabs.CacheSim

set_option autoImplicit false

/-- What an access looks like from outside. -/
inductive Kind where
  | hit
  | miss
  | evict (dirty : Bool)
deriving DecidableEq, Repr

/-- How the counters tell what an access was. -/
def Stats.kind (before after : Stats) : Kind :=
  if before.hits ≠ after.hits then .hit
  else if before.evictions = after.evictions then .miss
  else .evict (before.dirtyEvictions ≠ after.dirtyEvictions)

def Exit.kind : Exit → Kind
  | .hit _ => .hit
  | .fill => .miss
  | .replace dirty => .evict dirty

theorem kind_count {B : Nat} (positive : 0 < B) (stats : Stats) (exit : Exit) :
    stats.kind (stats.count B exit) = exit.kind := by
  cases exit with
  | hit dirty => simp [Stats.kind, Stats.count, Exit.kind]
  | fill => simp [Stats.kind, Stats.count, Exit.kind]
  | replace dirty => cases dirty <;> simp [Stats.kind, Stats.count, Exit.kind, Nat.ne_of_gt positive]

/-! ## The reference -/

/-- A block of the reference set, and whether it is dirty. -/
abbrev Block := Int × Bool

/-- An access of a set of `E` lines that always evicts its least recently used block. -/
def lruAccess (E : Nat) (addrTag : Int) (mode : Char) (blocks : List Block) : Kind × List Block :=
  match blocks.find? fun x => x.1 = addrTag with
  | some x => (.hit, blocks.erase x ++ [(addrTag, x.2 || mode == 'S')])
  | none =>
      if blocks.length < E then (.miss, blocks ++ [(addrTag, mode == 'S')])
      else (.evict (blocks.head?.any Prod.snd), blocks.tail ++ [(addrTag, mode == 'S')])

def lruAccesses (E : Nat) (blocks : List Block) : List (Int × Char) → List Kind × List Block
  | [] => ([], blocks)
  | (addrTag, mode) :: rest =>
      let (kind, blocks) := lruAccess E addrTag mode blocks
      let (kinds, blocks) := lruAccesses E blocks rest
      (kind :: kinds, blocks)

section Reference

variable {E : Nat} {addrTag : Int} {mode : Char} {blocks : List Block} {x : Block}

theorem lruAccess_hit (distinct : (blocks.map Prod.fst).Nodup) (member : x ∈ blocks) (isTag : x.1 = addrTag) :
    lruAccess E addrTag mode blocks = (.hit, blocks.erase x ++ [(addrTag, x.2 || mode == 'S')]) := by
  have found : (blocks.find? fun y => y.1 = addrTag) = some x := by
    cases found : blocks.find? fun y => y.1 = addrTag with
    | none => exact absurd (List.find?_eq_none.mp found x member) (by simp [isTag])
    | some y =>
        have same : y.1 = addrTag := by simpa using List.find?_some found
        rw [List.inj_on_of_nodup_map distinct (List.mem_of_find?_eq_some found) member (same.trans isTag.symm)]
  rw [lruAccess, found]

theorem lruAccess_absent (absent : addrTag ∉ blocks.map Prod.fst) : lruAccess E addrTag mode blocks =
    if blocks.length < E then (.miss, blocks ++ [(addrTag, mode == 'S')])
    else (.evict (blocks.head?.any Prod.snd), blocks.tail ++ [(addrTag, mode == 'S')]) := by
  have noBlock : (blocks.find? fun y => y.1 = addrTag) = none := by
    rw [List.find?_eq_none]
    intro y member same
    exact absent (List.mem_map.mpr ⟨y, member, by simpa using same⟩)
  rw [lruAccess, noBlock]

end Reference

def Line.block (L : Line) : Block := (L.tag, L.d)

namespace CacheSet

variable {E : Nat} {set set' : CacheSet E} {addrTag : Int} {mode : Char} {exit : Exit}
  {used used' pre post : List Line} {lru lru' : Int} {L : Line} {blocks : List Block}

/-- The exits of some accesses of a set. -/
def accessAll (set : CacheSet E) : List (Int × Char) → Option (List Exit × CacheSet E)
  | [] => some ([], set)
  | (addrTag, mode) :: rest => do
      let (exit, set) ← set.access addrTag mode
      let (exits, set) ← accessAll set rest
      some (exit :: exits, set)

/-! ## Holding the same blocks -/

/-- The line to be replaced has the least recently used block. -/
def Uses.Picks (blocks : List Block) (used : List Line) (lru : Int) : Prop :=
  ∀ pre post R, used = pre ++ R :: post → lru = pre.length → ∃ rest, blocks = R.block :: rest

/-- The blocks without one of them. -/
theorem perm_rest (same : ((pre ++ L :: post).map Line.block).Perm blocks) :
    (L.block :: (pre ++ post).map Line.block).Perm blocks := by
  have middle : (pre ++ L :: post).Perm (L :: (pre ++ post)) := List.perm_middle
  exact (middle.map Line.block).symm.trans same

/-- The blocks with another in the place of one. -/
theorem perm_insert {rest : List Block} {L' : Line} (same : ((pre ++ post).map Line.block).Perm rest) :
    ((pre ++ L' :: post).map Line.block).Perm (rest ++ [L'.block]) := by
  have middle : (pre ++ L' :: post).Perm (L' :: (pre ++ post)) := List.perm_middle
  refine (middle.map Line.block).trans ?_
  exact (same.cons L'.block).trans (List.perm_append_singleton _ _).symm

/-- **One access** of two sets with the same blocks. -/
theorem Uses.lruAccess (uses : Uses E addrTag mode used lru exit used' lru')
    (distinct : (used.map Line.tag).Nodup) (same : (used.map Line.block).Perm blocks)
    (picks : (∃ dirty, exit = .replace dirty) → Uses.Picks blocks used lru) :
    exit.kind = (lruAccess E addrTag mode blocks).1 ∧
      (used'.map Line.block).Perm (lruAccess E addrTag mode blocks).2 := by
  have tags : (used.map Line.tag).Perm (blocks.map Prod.fst) := by
    have := same.map Prod.fst
    rwa [List.map_map] at this
  have length : used.length = blocks.length := by simpa using same.length_eq
  cases uses with
  | @hit pre post L split isTag =>
      subst split
      have member : L.block ∈ blocks := same.subset (by simp)
      rw [lruAccess_hit (tags.nodup_iff.mp distinct) member isTag]
      refine ⟨rfl, ?_⟩
      have rest := (perm_rest same).erase L.block
      rw [List.erase_cons_head] at rest
      have marked : (addrTag, L.block.2 || mode == 'S') = ({ L with d := L.d || mode == 'S' } : Line).block := by
        rw [← isTag]
        rfl
      rw [marked]
      exact perm_insert rest
  | @fill L room absent isTag dirty =>
      rw [lruAccess_absent fun member => absent (tags.symm.subset member), if_pos (length ▸ room)]
      refine ⟨rfl, ?_⟩
      have marked : (addrTag, mode == 'S') = L.block := by
        rw [← isTag, ← dirty]
        rfl
      rw [List.map_append, marked]
      exact same.append_right _
  | @replace pre post R split full isLru absent =>
      obtain ⟨rest, rfl⟩ := picks ⟨_, rfl⟩ pre post R split isLru
      rw [lruAccess_absent fun member => absent (tags.symm.subset member), if_neg (by omega)]
      subst split
      refine ⟨rfl, ?_⟩
      exact perm_insert (perm_rest same).cons_inv

/-! ## Runs that pick the least recently used line -/

/-- Where an access replaces a line, it is that of the least recently used block. -/
def PicksLru (set : CacheSet E) (blocks : List Block) (addrTag : Int) : Prop :=
  (∀ L ∈ set.lines, L.Other addrTag) → ∀ i R, set.victim = some (i, R) →
    blocks.head?.map Prod.fst = some R.tag

/-- All accesses of a list pick the least recently used line, where they replace one. -/
def Guided (set : CacheSet E) (blocks : List Block) : List (Int × Char) → Prop
  | [] => True
  | (addrTag, mode) :: rest => set.PicksLru blocks addrTag ∧ ∀ exit set',
      set.access addrTag mode = some (exit, set') →
        Guided set' (CacheSim.lruAccess E addrTag mode blocks).2 rest

theorem victim_of_lru {pre post : List Line} {R : Line} (split : set.lines = pre ++ R :: post)
    (isLru : set.lru = pre.length) : set.victim = some (pre.length, R) := by
  rw [victim, show set.lru = Int.ofNat pre.length from isLru]
  simp [split]

theorem Fills.picks (fills : set.Fills used) (same : (used.map Line.block).Perm blocks)
    (picks : set.PicksLru blocks addrTag) (access : Accesses addrTag mode set exit set')
    (replaces : ∃ dirty, exit = .replace dirty) : Uses.Picks blocks used set.lru := by
  obtain ⟨dirty, rfl⟩ := replaces
  intro pre post R split isLru
  cases access with
  | @replace pre' post' R' _ split' others isLru' =>
      obtain ⟨free, lines, -⟩ := fills.split
      rw [split, List.append_assoc, List.cons_append, split'] at lines
      have sameLength : pre'.length = pre.length := by
        rw [isLru] at isLru'
        exact_mod_cast isLru'.symm
      obtain ⟨-, rest⟩ := List.append_inj lines sameLength
      obtain ⟨rfl, -⟩ := List.cons.inj rest
      have first := picks others _ _ (victim_of_lru split' isLru')
      obtain ⟨x, isHead, isTag⟩ := Option.map_eq_some_iff.mp first
      obtain ⟨rest, rfl⟩ := List.head?_eq_some_iff.mp isHead
      obtain ⟨L, inUse, isBlock⟩ := List.mem_map.mp (same.symm.subset (List.mem_cons_self ..))
      have inUse' : R' ∈ used := by simp [split]
      have sameTag : L.tag = R'.tag := by
        rw [← isTag, ← isBlock]
        rfl
      rw [← isBlock, List.inj_on_of_nodup_map fills.distinct inUse inUse' sameTag]
      exact ⟨rest, rfl⟩

/-- An access that picks the least recently used line. -/
theorem Fills.guided_step (fills : set.Fills used) (same : (used.map Line.block).Perm blocks)
    (picks : set.PicksLru blocks addrTag) (step : set.access addrTag mode = some (exit, set')) :
    ∃ used', set'.Fills used' ∧ exit.kind = (CacheSim.lruAccess E addrTag mode blocks).1 ∧
      (used'.map Line.block).Perm (CacheSim.lruAccess E addrTag mode blocks).2 := by
  have access := CacheSet.accesses step
  obtain ⟨used', uses, fills'⟩ := fills.accesses access
  exact ⟨used', fills', uses.lruAccess fills.distinct same (fills.picks same picks access)⟩

/-- **A run that picks the least recently used line** is classified like one of the reference. -/
theorem Fills.guided (fills : set.Fills used) (positive : 1 ≤ E) (same : (used.map Line.block).Perm blocks)
    {as : List (Int × Char)} (guided : set.Guided blocks as) :
    ∃ exits set', set.accessAll as = some (exits, set') ∧
      exits.map Exit.kind = (lruAccesses E blocks as).1 := by
  induction as generalizing set used blocks with
  | nil => exact ⟨[], set, rfl, rfl⟩
  | cons a as ih =>
      obtain ⟨addrTag, mode⟩ := a
      obtain ⟨picks, later⟩ := guided
      obtain ⟨exit, set₁, step⟩ := exists_access (fills.lru_inside positive) addrTag mode
      obtain ⟨used₁, fills₁, kind, same₁⟩ := fills.guided_step same picks step
      obtain ⟨exits, set', rest, kinds⟩ := ih fills₁ same₁ (later exit set₁ step)
      refine ⟨exit :: exits, set', ?_, ?_⟩
      · rw [accessAll, step]
        show (set₁.accessAll as).bind _ = _
        rw [rest]
        rfl
      · rw [List.map_cons, kind, kinds]
        rfl

/-! ## At most two lines -/

/-- `LRU` is not the index of the line used last. -/
def NotLast (E : Nat) (used : List Line) (lru : Int) (blocks : List Block) : Prop :=
  1 < E → ∀ pre L post, used = pre ++ L :: post → lru = pre.length →
    blocks.getLast?.map Prod.fst ≠ some L.tag

theorem lruAccess_last (E : Nat) (addrTag : Int) (mode : Char) (blocks : List Block) :
    (CacheSim.lruAccess E addrTag mode blocks).2.getLast?.map Prod.fst = some addrTag := by
  unfold CacheSim.lruAccess
  split
  · simp
  · split <;> simp

/-- The line that was used, and what that makes of `LRU`. -/
theorem Uses.position (uses : Uses E addrTag mode used lru exit used' lru') :
    ∃ pre L post, used' = pre ++ L :: post ∧ L.tag = addrTag ∧ lru' = lruOf E pre.length lru := by
  cases uses with
  | @hit pre post L split isTag => exact ⟨pre, _, post, rfl, isTag, rfl⟩
  | @fill L room absent isTag => exact ⟨used, L, [], rfl, isTag, rfl⟩
  | @replace pre post R => exact ⟨pre, _, post, rfl, rfl, rfl⟩

/-- A line is at one place only. -/
theorem split_unique {pre' post' : List Line} {L' : Line} (distinct : (used.map Line.tag).Nodup)
    (split : used = pre ++ L :: post) (split' : used = pre' ++ L' :: post') (sameTag : L.tag = L'.tag) :
    pre = pre' ∧ L = L' ∧ post = post' := by
  have tagAt : ∀ {p x q}, used = p ++ x :: q → (used.map Line.tag)[p.length]? = some x.tag := by
    intro p x q split
    simp [split]
  have inside : pre.length < (used.map Line.tag).length := by simp [split]
  have sameIndex : pre.length = pre'.length :=
    (List.getElem?_inj inside distinct).mp ((tagAt split).trans (sameTag ▸ (tagAt split').symm))
  obtain ⟨samePre, rest⟩ := List.append_inj (split.symm.trans split') sameIndex
  obtain ⟨sameLine, samePost⟩ := List.cons.inj rest
  exact ⟨samePre, sameLine, samePost⟩

/-- With two lines, every access makes `LRU` the index of the other one. -/
theorem Uses.notLast (uses : Uses E addrTag mode used lru exit used' lru') (few : E ≤ 2)
    (fits : used'.length ≤ E) (distinct : (used'.map Line.tag).Nodup) :
    NotLast E used' lru' (CacheSim.lruAccess E addrTag mode blocks).2 := by
  intro several pre L post split isLru last
  rw [lruAccess_last] at last
  obtain ⟨pre', L', post', split', isTag, lruNow⟩ := uses.position
  obtain ⟨rfl, -⟩ := split_unique distinct split split' ((Option.some.inj last).symm.trans isTag.symm)
  have inside : pre.length < used'.length := by simp [split]
  rw [lruNow, lruOf, if_pos several] at isLru
  split at isLru
  · omega
  · split at isLru <;> omega

/-- So a line that is replaced is the other one. -/
theorem Fills.picksLru (fills : set.Fills used) (few : E ≤ 2) (same : (used.map Line.block).Perm blocks)
    (notLast : NotLast E used set.lru blocks) : set.PicksLru blocks addrTag := by
  intro others i R isVictim
  obtain ⟨pre, post, lines, -, isLru⟩ := victim_split isVictim
  have isUsed := fills.full fun L member => (others L member).1
  have length : blocks.length = E := by
    rw [← same.length_eq, List.length_map, ← isUsed, set.lines_length]
  have member : R.block ∈ blocks := same.subset (List.mem_map_of_mem (by simp [← isUsed, lines]))
  rcases blocks with - | ⟨x, - | ⟨y, - | ⟨z, rest⟩⟩⟩
  · cases member
  · rw [← List.mem_singleton.mp member]
    rfl
  · have several : 1 < E := by
      rw [← length]
      exact Nat.one_lt_two
    have notY : y.1 ≠ R.tag := by simpa using notLast several pre R post (isUsed ▸ lines) isLru
    rcases List.mem_cons.mp member with isX | isY
    · rw [← isX]
      rfl
    · rw [← List.mem_singleton.mp isY] at notY
      exact absurd rfl notY
  · simp only [List.length_cons] at length
    omega

theorem Fills.guided_of_few (fills : set.Fills used) (few : E ≤ 2) (same : (used.map Line.block).Perm blocks)
    (notLast : NotLast E used set.lru blocks) (as : List (Int × Char)) : set.Guided blocks as := by
  induction as generalizing set used blocks with
  | nil => trivial
  | cons a as ih =>
      obtain ⟨addrTag, mode⟩ := a
      have picks : set.PicksLru blocks addrTag := fills.picksLru few same notLast
      refine ⟨picks, fun exit set' step => ?_⟩
      have access := CacheSet.accesses step
      obtain ⟨used', uses, fills'⟩ := fills.accesses access
      have same' := (uses.lruAccess fills.distinct same (fills.picks same picks access)).2
      exact ih fills' same' (uses.notLast few fills'.length_le fills'.distinct)

/-! ## Three lines and more -/

theorem Uses.fills (uses : Uses E addrTag mode used lru exit used' lru') (room : used.length < E)
    (absent : addrTag ∉ used.map Line.tag) :
    used'.map Line.block = used.map Line.block ++ [(addrTag, mode == 'S')] := by
  cases uses with
  | hit split isTag => exact absurd (by simp [split, isTag]) absent
  | @fill L _ _ isTag dirty =>
      rw [List.map_append, ← isTag, ← dirty]
      rfl
  | replace _ full => omega

theorem Uses.hits (uses : Uses E addrTag mode used lru exit used' lru') (distinct : (used.map Line.tag).Nodup)
    (split : used = pre ++ L :: post) (isTag : L.tag = addrTag) :
    used' = pre ++ { L with d := L.d || mode == 'S' } :: post ∧ lru' = lruOf E pre.length lru := by
  have present : addrTag ∈ used.map Line.tag := by simp [split, isTag]
  cases uses with
  | hit split' isTag' =>
      obtain ⟨rfl, rfl, rfl⟩ := split_unique distinct split split' (isTag.trans isTag'.symm)
      exact ⟨rfl, rfl⟩
  | fill _ absent => exact absurd present absent
  | replace _ _ _ absent => exact absurd present absent

theorem Uses.replaces (uses : Uses E addrTag mode used lru exit used' lru') (full : used.length = E)
    (absent : addrTag ∉ used.map Line.tag) (split : used = pre ++ L :: post) (isLru : lru = pre.length) :
    used' = pre ++ { L with tag := addrTag, d := mode == 'S' } :: post := by
  cases uses with
  | hit split isTag => exact absurd (by simp [split, isTag]) absent
  | fill room => omega
  | replace split' _ isLru' =>
      have sameLength := isLru.symm.trans isLru'
      obtain ⟨rfl, rest⟩ := List.append_inj (split.symm.trans split') (by exact_mod_cast sameLength)
      obtain ⟨rfl, rfl⟩ := List.cons.inj rest
      rfl

theorem Uses.present_of_hit (uses : Uses E addrTag mode used lru exit used' lru') (hit : exit.kind = .hit) :
    addrTag ∈ used.map Line.tag := by
  cases uses with
  | hit split isTag => simp [split, isTag]
  | fill => cases hit
  | replace => cases hit

theorem lruAccess_head (x : Block) (rest : List Block) : CacheSim.lruAccess E x.1 mode (x :: rest) =
    (.hit, rest ++ [(x.1, x.2 || mode == 'S')]) := by
  simp [CacheSim.lruAccess]

theorem lruAccess_present (present : addrTag ∈ blocks.map Prod.fst) :
    (CacheSim.lruAccess E addrTag mode blocks).1 = .hit := by
  obtain ⟨x, member, isTag⟩ := List.mem_map.mp present
  cases found : blocks.find? fun y => y.1 = addrTag with
  | none => exact absurd (List.find?_eq_none.mp found x member) (by simp [isTag])
  | some y =>
      rw [CacheSim.lruAccess, found]

theorem accessAll_append (as bs : List (Int × Char)) : set.accessAll (as ++ bs) =
    (set.accessAll as).bind fun x => (x.2.accessAll bs).map fun y => (x.1 ++ y.1, y.2) := by
  induction as generalizing set with
  | nil =>
      show set.accessAll bs = (set.accessAll bs).map _
      simp
  | cons a as ih =>
      obtain ⟨addrTag, mode⟩ := a
      rw [List.cons_append, accessAll, accessAll]
      cases set.access addrTag mode with
      | none => rfl
      | some x =>
          simp only [Option.bind_eq_bind, Option.bind_some, ih]
          cases x.2.accessAll as with
          | none => rfl
          | some y =>
              simp only [Option.bind_some]
              cases y.2.accessAll bs <;> rfl

theorem lruAccesses_append (as bs : List (Int × Char)) : lruAccesses E blocks (as ++ bs) =
    ((lruAccesses E blocks as).1 ++ (lruAccesses E (lruAccesses E blocks as).2 bs).1,
      (lruAccesses E (lruAccesses E blocks as).2 bs).2) := by
  induction as generalizing blocks with
  | nil => rfl
  | cons a as ih =>
      obtain ⟨addrTag, mode⟩ := a
      simp only [List.cons_append, lruAccesses, ih]

theorem Fills.next (fills : set.Fills used) (positive : 1 ≤ E) (addrTag : Int) (mode : Char) :
    ∃ exit set' used', set.access addrTag mode = some (exit, set') ∧
      Uses E addrTag mode used set.lru exit used' set'.lru ∧ set'.Fills used' := by
  obtain ⟨exit, set', step⟩ := exists_access (fills.lru_inside positive) addrTag mode
  obtain ⟨used', uses, fills'⟩ := fills.accesses (CacheSet.accesses step)
  exact ⟨exit, set', used', step, uses, fills'⟩

/-- Loads of the blocks with the first `n` tags. -/
def fillers (n : Nat) : List (Int × Char) := (List.range n).map fun i : Nat => ((i : Int), 'L')

def clean (n : Nat) : List Block := (List.range n).map fun i : Nat => ((i : Int), false)

theorem clean_tags (n : Nat) : (clean n).map Prod.fst = (List.range n).map fun i : Nat => (i : Int) := by
  rw [clean, List.map_map]
  rfl

theorem absent_clean (n : Nat) : (n : Int) ∉ (clean n).map Prod.fst := by
  intro member
  rw [clean_tags] at member
  obtain ⟨i, inRange, same⟩ := List.mem_map.mp member
  have := List.mem_range.mp inRange
  omega

theorem tags_of_blocks {n : Nat} (same : used.map Line.block = clean n) :
    used.map Line.tag = (clean n).map Prod.fst := by
  rw [← same, List.map_map]
  rfl

/-- They fill the set, in the simulator and in the reference. -/
theorem filled (positive : 1 ≤ E) {n : Nat} (le : n ≤ E) : ∃ exits set used,
    (initSet E).accessAll (fillers n) = some (exits, set) ∧ set.Fills used ∧ used.map Line.block = clean n ∧
      (lruAccesses E [] (fillers n)).2 = clean n := by
  induction n with
  | zero => exact ⟨[], _, [], rfl, initSet_fills E, rfl, rfl⟩
  | succ n ih =>
      obtain ⟨exits, set, used, run, fills, same, reference⟩ := ih (by omega)
      obtain ⟨exit, set', used', step, uses, fills'⟩ := fills.next positive n 'L'
      have length : used.length = n := by
        rw [← List.length_map (f := Line.block), same]
        simp [clean]
      have same' := uses.fills (by omega) (tags_of_blocks same ▸ absent_clean n)
      have more : fillers (n + 1) = fillers n ++ [((n : Int), 'L')] := by simp [fillers, List.range_succ]
      have grown : clean (n + 1) = clean n ++ [((n : Int), false)] := by simp [clean, List.range_succ]
      refine ⟨exits ++ [exit], set', used', ?_, fills', ?_, ?_⟩
      · rw [more, accessAll_append, run]
        simp [accessAll, step]
      · rw [same', same, grown]
        rfl
      · rw [more, lruAccesses_append, reference, grown]
        show (CacheSim.lruAccess E n 'L' (clean n)).2 = _
        rw [lruAccess_absent (absent_clean n), if_pos (by simp [clean]; omega)]
        rfl

/-- The first two blocks are used again, a third takes the place of the first of them, and
that is wanted once more. -/
def unlike (E : Nat) : List (Int × Char) := [(0, 'L'), (1, 'L'), ((E : Int), 'L'), (0, 'L')]

theorem clean_split (several : 3 ≤ E) :
    ∃ rest, clean E = (0, false) :: (1, false) :: (2, false) :: rest := by
  obtain ⟨n, rfl⟩ := Nat.exists_eq_add_of_le several
  exact ⟨((List.range n).map fun i => 3 + i).map fun i : Nat => ((i : Int), false), by
    rw [clean, List.range_add, List.map_append]
    rfl⟩

/-- The reference keeps the first block: it has been used. -/
theorem unlike_reference (several : 3 ≤ E) :
    ∃ kinds, (lruAccesses E (clean E) (unlike E)).1 = kinds ++ [.hit] ∧ kinds.length = 3 := by
  obtain ⟨rest, blocks⟩ := clean_split several
  have length : (clean E).length = E := by simp [clean]
  have absent := absent_clean E
  rw [blocks] at length absent ⊢
  have first : CacheSim.lruAccess E 0 'L' ((0, false) :: (1, false) :: (2, false) :: rest) =
      (.hit, (1, false) :: (2, false) :: rest ++ [(0, false)]) := lruAccess_head (0, false) _
  have second : CacheSim.lruAccess E 1 'L' ((1, false) :: (2, false) :: rest ++ [(0, false)]) =
      (.hit, (2, false) :: rest ++ [(0, false)] ++ [(1, false)]) := lruAccess_head (1, false) _
  have third : CacheSim.lruAccess E E 'L' ((2, false) :: rest ++ [(0, false)] ++ [(1, false)]) =
      (.evict false, rest ++ [(0, false)] ++ [(1, false)] ++ [((E : Int), false)]) := by
    rw [lruAccess_absent, if_neg]
    · rfl
    · simp only [List.length_append, List.length_cons, List.length_nil] at length ⊢
      omega
    · simp only [List.map_cons, List.map_append, List.map_nil, List.mem_append, List.mem_cons,
        List.not_mem_nil, or_false, not_or] at absent ⊢
      tauto
  have fourth : (CacheSim.lruAccess E 0 'L' (rest ++ [(0, false)] ++ [(1, false)] ++ [((E : Int), false)])).1 = .hit :=
    lruAccess_present (by simp)
  refine ⟨[.hit, .hit, .evict false], ?_, rfl⟩
  simp only [unlike, lruAccesses, first, second, third, fourth]
  rfl

/-- The simulator has replaced it. -/
theorem unlike_simulator (several : 3 ≤ E) (fills : set.Fills used) (same : used.map Line.block = clean E) :
    ∃ exits exit set', set.accessAll (unlike E) = some (exits ++ [exit], set') ∧
      exits.length = 3 ∧ exit.kind ≠ .hit := by
  have positive : 1 ≤ E := by omega
  obtain ⟨rest, blocks⟩ := clean_split several
  have tags := tags_of_blocks same
  have absent := absent_clean E
  have distinct := fills.distinct
  rw [← tags] at absent
  have length : used.length = E := by
    rw [← List.length_map (f := Line.block), same]
    simp [clean]
  rw [blocks] at same
  obtain ⟨L, more, rfl, isFirst, same⟩ := List.map_eq_cons_iff.mp same
  obtain ⟨M, more, rfl, isSecond, -⟩ := List.map_eq_cons_iff.mp same
  have zero : L.tag = 0 := congrArg Prod.fst isFirst
  have one : M.tag = 1 := congrArg Prod.fst isSecond
  obtain ⟨e₁, set₁, used₁, step₁, uses₁, fills₁⟩ := fills.next positive 0 'L'
  obtain ⟨rfl, -⟩ := uses₁.hits distinct (show _ = [] ++ L :: (M :: more) from rfl) zero
  obtain ⟨e₂, set₂, used₂, step₂, uses₂, fills₂⟩ := fills₁.next positive 1 'L'
  obtain ⟨rfl, lru₂⟩ := uses₂.hits fills₁.distinct (show _ = [_] ++ M :: more from rfl) one
  obtain ⟨e₃, set₃, used₃, step₃, uses₃, fills₃⟩ := fills₂.next positive E 'L'
  have isLru : set₂.lru = 0 := by
    rw [lru₂]
    exact if_pos (by omega)
  obtain rfl := uses₃.replaces length absent (show _ = [] ++ _ :: _ from rfl) isLru
  obtain ⟨e₄, set₄, used₄, step₄, uses₄, -⟩ := fills₃.next positive 0 'L'
  refine ⟨[e₁, e₂, e₃], e₄, set₄, ?_, rfl, ?_⟩
  · simp [unlike, accessAll, step₁, step₂, step₃, step₄]
  · intro hit
    have present := uses₄.present_of_hit hit
    simp only [List.nil_append, List.map_cons, List.nodup_cons, List.mem_cons, zero, one] at present distinct
    rcases present with isNew | later
    · omega
    · rcases List.mem_cons.mp later with isSecond | isRest
      · cases isSecond
      · exact distinct.1 (Or.inr isRest)

/-- **A set of three lines or more** does not always replace the least recently used one. -/
theorem exists_unlike (several : 3 ≤ E) : ∃ as exits set', (initSet E).accessAll as = some (exits, set') ∧
    exits.map Exit.kind ≠ (lruAccesses E [] as).1 := by
  obtain ⟨exits, set, used, run, fills, same, reference⟩ := filled (by omega) (Nat.le_refl E)
  obtain ⟨more, exit, set', run', length, miss⟩ := unlike_simulator several fills same
  obtain ⟨kinds, hits, length'⟩ := unlike_reference several
  refine ⟨fillers E ++ unlike E, exits ++ (more ++ [exit]), set', ?_, fun alike => ?_⟩
  · rw [accessAll_append, run]
    simp [run']
  · rw [lruAccesses_append, reference, hits, List.map_append, List.map_append] at alike
    obtain ⟨-, last⟩ := List.append_inj' alike (by simp [length, length'])
    obtain ⟨-, last⟩ := List.append_inj' last rfl
    exact miss (List.cons.inj last).1

end CacheSet

/-! ## The cache -/

namespace Cache

open CacheSet

variable {C : Cache} {index : Nat}

/-- The classification of accesses to the set `index`, read from the counters. -/
def kinds (index : Nat) (C : Cache) (stats : Stats) : List (Int × Char) → Option (List Kind)
  | [] => some []
  | (addrTag, mode) :: rest => do
      let (C, stats') ← C.load stats ⟨index, addrTag, mode⟩
      let kinds ← kinds index C stats' rest
      some (stats.kind stats' :: kinds)

theorem kinds_eq {set : CacheSet C.E} (found : C.data[index]? = some set) (positive : 0 < C.B) (stats : Stats)
    (as : List (Int × Char)) : C.kinds index stats as =
      (set.accessAll as).map fun x => x.1.map Exit.kind := by
  induction as generalizing C stats with
  | nil => rfl
  | cons a as ih =>
      obtain ⟨addrTag, mode⟩ := a
      rw [kinds, CacheSet.accessAll, load, access, found]
      cases step : set.access addrTag mode with
      | none => simp [step]
      | some x =>
          obtain ⟨exit, set'⟩ := x
          have inside : index < C.data.length := by
            by_contra outside
            rw [List.getElem?_eq_none (Nat.le_of_not_lt outside)] at found
            cases found
          have found' : (C.setData index set').data[index]? = some set' := by
            show (C.data.set index set')[index]? = some set'
            simp [inside]
          have rest := ih found' positive (stats.count C.B exit)
          simp only [Option.bind_eq_bind, Option.bind_some, step]
          rw [rest, kind_count positive]
          have tail : ∀ r : Option (List Exit × CacheSet C.E),
              ((r.map fun x => x.1.map Exit.kind).bind fun kinds => some (exit.kind :: kinds)) =
                (r.bind fun x => some (exit :: x.1, x.2)).map fun x => x.1.map Exit.kind := by
            intro r
            cases r <;> rfl
          exact tail _

/-- **Which caches replace the least recently used line**: those of at most two lines a set,
and in the others the runs in which the line that is replaced happens to be that. -/
theorem lru_replacement {s E b : Nat} (init : initCache s E b = some C) (positive : 1 ≤ E)
    (inside : index < 2 ^ s) (stats : Stats) :
    ((∀ as, C.kinds index stats as = some (lruAccesses E [] as).1) ↔ E ≤ 2) ∧
      ∀ as, (initSet E).Guided [] as → C.kinds index stats as = some (lruAccesses E [] as).1 := by
  have kinds_eq : ∀ as, C.kinds index stats as = ((initSet E).accessAll as).map fun x => x.1.map Exit.kind := by
    intro as
    unfold initCache at init
    split at init
    · obtain rfl := Option.some.inj init
      have found : (fresh (2 ^ s) (2 ^ b) E).data[index]? = some (initSet E) := by
        show (List.replicate (2 ^ s) (initSet E))[index]? = some (initSet E)
        simp [inside]
      exact Cache.kinds_eq found (Nat.two_pow_pos b) stats as
    · cases init
  have fills := initSet_fills E
  have guided : ∀ as, (initSet E).Guided [] as → C.kinds index stats as = some (lruAccesses E [] as).1 := by
    intro as guided
    obtain ⟨exits, set', run, alike⟩ := fills.guided positive (List.Perm.refl _) guided
    rw [kinds_eq, run]
    exact congrArg some alike
  refine ⟨⟨fun alike => ?_, fun few as => ?_⟩, guided⟩
  · by_contra several
    obtain ⟨as, exits, set', run, unlike⟩ := exists_unlike (Nat.lt_of_not_le several)
    have same := alike as
    rw [kinds_eq, run] at same
    exact unlike (Option.some.inj same)
  · apply guided
    refine fills.guided_of_few few (List.Perm.refl _) ?_ as
    intro _ pre L post split
    simp at split

/-- A set of two lines. -/
theorem lru_replacement_twoWay : ∃ C, initCache 0 2 4 = some C ∧
    ((∀ as, C.kinds 0 .zero as = some (lruAccesses 2 [] as).1) ↔ 2 ≤ 2) ∧
      ∀ as, (initSet 2).Guided [] as → C.kinds 0 .zero as = some (lruAccesses 2 [] as).1 :=
  ⟨_, rfl, lru_replacement (s := 0) (b := 4) (show initCache 0 2 4 = _ from rfl) (by decide) (by decide) .zero⟩

/-- In a set of three lines the third access to the first block is not a hit. -/
theorem lru_replacement_counterexample : ¬ ∀ (s E b index : Nat) (C : Cache) (stats : Stats)
    (as : List (Int × Char)), initCache s E b = some C → 1 ≤ E → index < 2 ^ s →
      C.kinds index stats as = some (lruAccesses E [] as).1 := by
  intro claim
  have alike := claim 0 3 4 0 _ .zero [(0, 'L'), (16, 'L'), (32, 'L'), (0, 'L'), (16, 'L'), (48, 'L'), (0, 'L')]
    rfl (by decide) (by decide)
  revert alike
  decide +kernel

end Cache

end SystemsLabs.CacheSim
