/-
# SystemsLabs.Theory.SeveredList -- doubly linked lists with missing links

The nodes have an order that the links no longer show everywhere: between two neighbours either
both links are there, or neither is (`Seam`).  A list that is `Seamed` from null to null is a row
of doubly linked lists, each closed by null at both ends.

An insertion that takes its upper neighbour from the link of the lower one (`Seamed.insert`) and a
removal that joins what the node was linked to (`Seamed.unlink`) leave such a row.  From every node
the links lead to null (`Seamed.path`).
-/
import Mathlib.Data.List.Chain
import SystemsLabs.Theory.PointerPath

namespace SystemsLabs.Theory.SeveredList

open PointerPath

set_option autoImplicit false

universe u

variable {α : Type u} {next prev next' prev' : α → α} {null a b x : α} {l before after : List α}

/-- Two neighbours, or a node and an end of the row, are linked in both directions or in none. -/
def Seam (next prev : α → α) (null a b : α) : Prop :=
  a ≠ null ∧ b ≠ null ∧ next a = b ∧ prev b = a ∨ (a ≠ null → next a = null) ∧ (b ≠ null → prev b = null)

abbrev Seamed (next prev : α → α) (null : α) (l : List α) : Prop := l.IsChain (Seam next prev null)

theorem Seam.congr (seam : Seam next prev null a b) (sameNext : a ≠ null → next' a = next a)
    (samePrev : b ≠ null → prev' b = prev b) : Seam next' prev' null a b := by
  rcases seam with ⟨realA, realB, forward, backward⟩ | ⟨closedA, closedB⟩
  · exact .inl ⟨realA, realB, (sameNext realA).trans forward, (samePrev realB).trans backward⟩
  · exact .inr ⟨fun real => (sameNext real).trans (closedA real), fun real => (samePrev real).trans (closedB real)⟩

/-- The links out of a row are not the row's. -/
theorem Seamed.congr (seamed : Seamed next prev null l) (sameNext : ∀ y ∈ l.dropLast, y ≠ null → next' y = next y)
    (samePrev : ∀ y ∈ l.tail, y ≠ null → prev' y = prev y) : Seamed next' prev' null l := by
  induction l with
  | nil => exact List.isChain_nil
  | cons a l ih =>
      cases l with
      | nil => exact List.isChain_singleton a
      | cons b l =>
          obtain ⟨seam, rest⟩ := List.isChain_cons_cons.mp seamed
          refine List.isChain_cons_cons.mpr ⟨seam.congr (sameNext a (by simp)) (samePrev b (by simp)), ih rest ?_ ?_⟩
          · exact fun y member => sameNext y (by rw [List.dropLast_cons_cons]; exact List.mem_cons_of_mem _ member)
          · exact fun y member => samePrev y (List.mem_of_mem_tail member)

/-- A row that neither edit reaches, between the nodes that they do reach. -/
theorem Seamed.frame (seamed : Seamed next prev null (before ++ [a])) (otherNext : ∀ y ∈ before, y ≠ null → next' y = next y)
    (otherPrev : ∀ y ∈ before ++ [a], y ≠ null → prev' y = prev y) : Seamed next' prev' null (before ++ [a]) :=
  seamed.congr (fun y member => otherNext y (by simpa using member)) fun y member => otherPrev y (List.mem_of_mem_tail member)

/-- **Inserting a node** after `a`, where the upper neighbour `seen` is what `a` leads to. -/
theorem Seamed.insert (seamed : Seamed next prev null (before ++ a :: b :: after)) (real : x ≠ null) (seen : α)
    (atEnd : a = null → seen = null) (isSeen : a ≠ null → seen = next a) (link : next' x = seen) (backLink : prev' x = a)
    (lower : a ≠ null → next' a = x) (upper : seen ≠ null → prev' seen = x)
    (sameNext : ∀ y ∈ before ++ b :: after, y ≠ null → next' y = next y)
    (samePrev : ∀ y ∈ before ++ a :: b :: after, y ≠ null → y ≠ seen → prev' y = prev y)
    (unseen : ∀ y ∈ before ++ a :: after, y ≠ null → y ≠ b) : Seamed next' prev' null (before ++ a :: x :: b :: after) := by
  obtain ⟨low, seam, high⟩ := List.isChain_append_cons_cons.mp seamed
  -- the upper neighbour is `b`, or there is none to see
  have isLive : seen ≠ null ∧ seen = b ∨ seen = null ∧ (b ≠ null → prev b = null) := by
    rcases seam with ⟨realA, realB, forward, -⟩ | ⟨closedA, closedB⟩
    · rw [isSeen realA, forward]
      exact .inl ⟨realB, rfl⟩
    · refine .inr ⟨?_, closedB⟩
      by_cases realA : a = null
      · exact atEnd realA
      · exact (isSeen realA).trans (closedA realA)
  have notSeen : ∀ y ∈ before ++ a :: after, y ≠ null → y ≠ seen := by
    rintro y member realY rfl
    rcases isLive with ⟨-, isB⟩ | ⟨isNull, -⟩
    · exact unseen y member realY isB
    · exact realY isNull
  refine List.isChain_append_cons_cons.mpr ⟨Seamed.frame low ?_ ?_, ?_,
    List.isChain_cons_cons.mpr ⟨?_, Seamed.congr high ?_ ?_⟩⟩
  · exact fun y member => sameNext y (List.mem_append_left _ member)
  · intro y member realY
    have member : y ∈ before ++ a :: after := by
      rw [List.mem_append, List.mem_singleton] at member
      rw [List.mem_append, List.mem_cons]
      exact member.imp_right .inl
    refine samePrev y ?_ realY (notSeen y member realY)
    rw [List.mem_append, List.mem_cons] at member ⊢
    exact member.imp_right fun inAfter => inAfter.imp_right (List.mem_cons_of_mem _)
  · by_cases realA : a = null
    · exact .inr ⟨fun nonnull => absurd realA nonnull, fun _ => backLink.trans realA⟩
    · exact .inl ⟨realA, real, lower realA, backLink⟩
  · rcases isLive with ⟨nonnull, rfl⟩ | ⟨seenNull, closed⟩
    · exact .inl ⟨real, nonnull, link, upper nonnull⟩
    · refine .inr ⟨fun _ => link.trans seenNull, fun realB => (samePrev b (by simp) realB ?_).trans (closed realB)⟩
      exact fun same => realB (same.trans seenNull)
  · exact fun y member => sameNext y (List.mem_append_right _ (List.dropLast_subset _ member))
  · intro y member realY
    rw [List.tail_cons] at member
    exact samePrev y (by simp [member]) realY (notSeen y (by simp [member]) realY)

/-- What the links of a node hold. -/
theorem Seamed.around (seamed : Seamed next prev null (before ++ a :: x :: b :: after)) (real : x ≠ null) :
    (prev x = a ∧ a ≠ null ∧ next a = x ∨ prev x = null ∧ (a ≠ null → next a = null)) ∧
      (next x = b ∧ b ≠ null ∧ prev b = x ∨ next x = null ∧ (b ≠ null → prev b = null)) := by
  obtain ⟨-, seam, rest⟩ := List.isChain_append_cons_cons.mp seamed
  have seam' := (List.isChain_cons_cons.mp rest).1
  constructor
  · rcases seam with ⟨realA, -, forward, backward⟩ | ⟨closedA, closedX⟩
    · exact .inl ⟨backward, realA, forward⟩
    · exact .inr ⟨closedX real, closedA⟩
  · rcases seam' with ⟨-, realB, forward, backward⟩ | ⟨closedX, closedB⟩
    · exact .inl ⟨forward, realB, backward⟩
    · exact .inr ⟨closedX real, closedB⟩

/-- **Removing a node**: what it was linked to, in either direction, takes over its links. -/
theorem Seamed.unlink (seamed : Seamed next prev null (before ++ a :: x :: b :: after)) (real : x ≠ null)
    (lower : prev x ≠ null → next' (prev x) = next x) (upper : next x ≠ null → prev' (next x) = prev x)
    (sameNext : ∀ y ∈ before ++ a :: b :: after, y ≠ null → y ≠ prev x → next' y = next y)
    (samePrev : ∀ y ∈ before ++ a :: b :: after, y ≠ null → y ≠ next x → prev' y = prev y)
    (otherA : ∀ y ∈ before ++ b :: after, y ≠ null → y ≠ a)
    (otherB : ∀ y ∈ before ++ a :: after, y ≠ null → y ≠ b) : Seamed next' prev' null (before ++ a :: b :: after) := by
  obtain ⟨low, -, rest⟩ := List.isChain_append_cons_cons.mp seamed
  have high := (List.isChain_cons_cons.mp rest).2
  obtain ⟨isPrev, isNext⟩ := seamed.around real
  have notPrev : ∀ y ∈ before ++ b :: after, y ≠ null → y ≠ prev x := by
    rintro y member realY rfl
    rcases isPrev with ⟨isA, -⟩ | ⟨isNull, -⟩
    · exact otherA _ member realY isA
    · exact realY isNull
  have notNext : ∀ y ∈ before ++ a :: after, y ≠ null → y ≠ next x := by
    rintro y member realY rfl
    rcases isNext with ⟨isB, -⟩ | ⟨isNull, -⟩
    · exact otherB _ member realY isB
    · exact realY isNull
  have inRow : ∀ y, y ∈ before ++ a :: b :: after ↔ y ∈ before ∨ y = a ∨ y = b ∨ y ∈ after := fun y => by simp
  refine List.isChain_append_cons_cons.mpr ⟨Seamed.frame low ?_ ?_, ?_, Seamed.congr high ?_ ?_⟩
  · intro y member realY
    exact sameNext y ((inRow y).mpr (.inl member)) realY (notPrev y (List.mem_append_left _ member) realY)
  · intro y member realY
    rw [List.mem_append, List.mem_singleton] at member
    refine samePrev y ((inRow y).mpr (member.imp_right .inl)) realY (notNext y ?_ realY)
    rw [List.mem_append, List.mem_cons]
    exact member.imp_right .inl
  · rcases isPrev with ⟨isA, realA, -⟩ | ⟨noPrev, closedA⟩
    · rw [isA] at lower
      rcases isNext with ⟨isB, realB, -⟩ | ⟨noNext, closedB⟩
      · rw [isB] at lower upper
        exact .inl ⟨realA, realB, lower realA, (upper realB).trans isA⟩
      · refine .inr ⟨fun _ => (lower realA).trans noNext, fun realB => ?_⟩
        exact (samePrev b (by simp) realB fun same => realB (same.trans noNext)).trans (closedB realB)
    · have stillA : a ≠ null → next' a = null := fun realA =>
        (sameNext a (by simp) realA fun same => realA (same.trans noPrev)).trans (closedA realA)
      rcases isNext with ⟨isB, realB, -⟩ | ⟨noNext, closedB⟩
      · rw [isB] at upper
        exact .inr ⟨stillA, fun _ => (upper realB).trans noPrev⟩
      · refine .inr ⟨stillA, fun realB => ?_⟩
        exact (samePrev b (by simp) realB fun same => realB (same.trans noNext)).trans (closedB realB)
  · intro y member realY
    have member := List.dropLast_subset _ member
    exact sameNext y ((inRow y).mpr (.inr (.inr (List.mem_cons.mp member)))) realY
      (notPrev y (List.mem_append_right _ member) realY)
  · intro y member realY
    rw [List.tail_cons] at member
    exact samePrev y (by simp [member]) realY (notNext y (by simp [member]) realY)

/-- From every node the links lead to null, through nodes of the row. -/
theorem Seamed.path (seamed : Seamed next prev null (a :: (l ++ [null]))) (real : a ≠ null) (rest : null ∉ l) :
    ∃ part : List α, Path next a part null ∧ part <+: a :: l := by
  induction l generalizing a with
  | nil =>
      obtain ⟨seam, -⟩ := List.isChain_cons_cons.mp seamed
      have last : next a = null := seam.elim (fun joined => joined.2.2.1) fun cut => cut.1 real
      exact ⟨[a], ⟨rfl, last⟩, List.prefix_refl _⟩
  | cons b l ih =>
      obtain ⟨seam, high⟩ := List.isChain_cons_cons.mp seamed
      rw [List.mem_cons, not_or] at rest
      rcases seam with ⟨-, realB, forward, -⟩ | ⟨closed, -⟩
      · obtain ⟨part, path, isPrefix⟩ := ih high realB rest.2
        exact ⟨a :: part, ⟨rfl, forward.symm ▸ path⟩, (List.cons_prefix_cons).mpr ⟨rfl, isPrefix⟩⟩
      · exact ⟨[a], ⟨rfl, closed real⟩, List.prefix_cons_iff.mpr (.inr ⟨[], rfl, List.nil_prefix⟩)⟩

/-- A row cut in two: the nodes next to the cut, or null, and those beyond them. -/
theorem row_split (null : α) {pre post : List α} (nodup : (pre ++ post).Nodup) :
    ∃ before after : List α,
      null :: (pre ++ post ++ [null]) = before ++ pre.getLastD null :: post.headD null :: after ∧
      (∀ x, null :: (pre ++ x :: post ++ [null]) = before ++ pre.getLastD null :: x :: post.headD null :: after) ∧
      (∀ y ∈ before, y ≠ null → y ∈ pre ∧ y ≠ pre.getLastD null) ∧
      ∀ y ∈ after, y ≠ null → y ∈ post ∧ y ≠ post.headD null := by
  obtain ⟨nodupPre, nodupPost, -⟩ := List.nodup_append.mp nodup
  obtain ⟨before, isRow, low⟩ : ∃ before, null :: pre = before ++ [pre.getLastD null] ∧
      ∀ y ∈ before, y ≠ null → y ∈ pre ∧ y ≠ pre.getLastD null := by
    rcases List.eq_nil_or_concat' pre with rfl | ⟨front, r, rfl⟩
    · exact ⟨[], rfl, by simp⟩
    · refine ⟨null :: front, by simp, fun y member real => ?_⟩
      have inFront := (List.mem_cons.mp member).resolve_left real
      rw [List.getLastD_concat]
      refine ⟨List.mem_append_left _ inFront, ?_⟩
      rintro rfl
      exact (List.nodup_append.mp nodupPre).2.2 y inFront y (List.mem_singleton_self y) rfl
  obtain ⟨after, isRest, high⟩ : ∃ after, post ++ [null] = post.headD null :: after ∧
      ∀ y ∈ after, y ≠ null → y ∈ post ∧ y ≠ post.headD null := by
    cases post with
    | nil => exact ⟨[], rfl, by simp⟩
    | cons b rest =>
        refine ⟨rest ++ [null], rfl, fun y member real => ?_⟩
        have inRest : y ∈ rest := (List.mem_append.mp member).resolve_right fun last => real (List.mem_singleton.mp last)
        refine ⟨List.mem_cons_of_mem _ inRest, ?_⟩
        rintro rfl
        exact (List.nodup_cons.mp nodupPost).1 inRest
  refine ⟨before, after, ?_, fun x => ?_, low, high⟩
  · rw [List.append_assoc, isRest, ← List.cons_append, isRow, List.append_assoc, List.singleton_append]
  · rw [List.append_assoc, List.cons_append, isRest, ← List.cons_append, isRow, List.append_assoc, List.singleton_append]

end SystemsLabs.Theory.SeveredList
