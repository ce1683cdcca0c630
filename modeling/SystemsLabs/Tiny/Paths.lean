/-
# SystemsLabs.Tiny.Paths -- the file names of Tiny

The name of static content stays below the directory of the server: none of its components is `..`,
but for the last (`parseUri_static`), and the file system has a directory there.  What is below
`cgi-bin` is not looked at in this way (`parseUri_dynamic`).
-/
import Mathlib.Data.List.Infix
import SystemsLabs.Tiny.Server

namespace SystemsLabs.Tiny

set_option autoImplicit false

variable {name path needle uri filename cgiargs xs ys : List Char} {c : Char}

theorem strstr_iff : strstr path needle = true ↔ needle <:+: path := by
  induction path with
  | nil => simp [strstr]
  | cons c path ih => rw [strstr, Bool.or_eq_true, List.isPrefixOf_iff_prefix, ih, List.infix_cons_iff]

/-- `name` stands in `path` between slashes, or between one and an end. -/
def IsComponent (name path : List Char) : Prop :=
  ∃ before after, path = before ++ (name ++ after) ∧ (before = [] ∨ ['/'] <:+ before) ∧ (after = [] ∨ ['/'] <+: after)

/-- A component is the first, the last or between two slashes. -/
theorem IsComponent.cases (component : IsComponent name path) :
    path = name ∨ name ++ ['/'] <+: path ∨ '/' :: name <:+ path ∨ '/' :: (name ++ ['/']) <:+: path := by
  obtain ⟨before, after, rfl, first | ⟨front, rfl⟩, last | ⟨back, rfl⟩⟩ := component
  · subst first last
    exact Or.inl (by simp)
  · subst first
    exact Or.inr (Or.inl ⟨back, by simp⟩)
  · subst last
    exact Or.inr (Or.inr (Or.inl ⟨front, by simp⟩))
  · exact Or.inr (Or.inr (Or.inr ⟨front, back, by simp⟩))

/-- What ends in `c` is found in the part that has `c`. -/
theorem infix_left (found : needle ++ [c] <:+: xs ++ ys) (absent : c ∉ ys) : needle ++ [c] <:+: xs := by
  obtain ⟨before, after, split⟩ := found
  obtain ⟨more, here, -⟩ | ⟨more, there, rest⟩ := List.append_eq_append_iff.mp split
  · exact ⟨before, more, here.symm⟩
  · -- the match would end in `ys`
    rcases List.eq_nil_or_concat more with rfl | ⟨front, last, rfl⟩
    · exact ⟨before, [], by rw [there, List.append_nil, List.append_nil]⟩
    · rw [List.concat_eq_append, ← List.append_assoc, ← List.append_assoc] at there
      obtain ⟨-, same⟩ := List.append_inj' there rfl
      rw [rest, List.concat_eq_append, ← same] at absent
      exact absurd (by simp) absent

/-- What `parse_uri` has checked: the home file of a directory adds no slash. -/
theorem parseUri_static_eq (parsed : parseUri uri = .static filename) :
    uri.head? = some '/' ∧ ¬ "/../".toList <:+: uri ∧
      ∃ home, filename = '.' :: (uri ++ home) ∧ (home = [] ∨ home = "home.html".toList) := by
  unfold parseUri at parsed
  dsimp only at parsed
  split at parsed
  · cases parsed
  · next slash =>
    split at parsed
    · split at parsed
      · cases parsed
      · split at parsed <;> cases parsed
    · split at parsed
      · cases parsed
      · next inside =>
        rw [strstr_iff] at inside
        generalize chosen : (if uri.getLast? = some '/' then "home.html".toList else []) = home at parsed
        split at parsed
        · cases parsed
        · injection parsed with same
          refine ⟨not_not.mp slash, inside, home, same.symm, ?_⟩
          rw [← chosen]
          split
          · exact Or.inr rfl
          · exact Or.inl rfl

/-- **The name of static content stays inside**: only its last component can be `..`. -/
theorem parseUri_static (parsed : parseUri uri = .static filename) :
    "./".toList <+: filename ∧ (IsComponent "..".toList filename → "/..".toList <:+ filename) := by
  obtain ⟨slash, inside, home, rfl, isHome⟩ := parseUri_static_eq parsed
  obtain ⟨rest, rfl⟩ : ∃ rest, uri = '/' :: rest := by
    cases uri with
    | nil => cases slash
    | cons c rest => exact ⟨rest, by rw [Option.some.inj slash]⟩
  have noSlash : '/' ∉ home := by
    rcases isHome with rfl | rfl
    · exact List.not_mem_nil
    · decide
  refine ⟨⟨rest ++ home, rfl⟩, fun component => ?_⟩
  rcases component.cases with whole | first | last | between
  · simp at whole
  · simp at first
  · exact last
  · have found : "/../".toList <:+: '/' :: rest ++ home := by
      refine (List.infix_cons_iff.mp between).resolve_left fun first => ?_
      simp at first
    have inUri : "/..".toList ++ ['/'] <:+: '/' :: rest := infix_left found noSlash
    exact absurd inUri inside

/-- The name of a program is below `cgi-bin` as it is written. -/
theorem parseUri_dynamic (parsed : parseUri uri = .dynamic filename cgiargs) : "./cgi-bin/".toList <+: filename := by
  unfold parseUri at parsed
  dsimp only at parsed
  split at parsed
  · cases parsed
  · split at parsed
    · next below =>
      rw [List.isPrefixOf_iff_prefix] at below
      split at parsed
      · cases parsed
      · split at parsed
        · cases parsed
        · injection parsed with same
          rw [← same]
          obtain ⟨rest, rfl⟩ := below
          rw [List.takeWhile_append_of_pos (by simp)]
          exact ⟨_, rfl⟩
    · generalize (if uri.getLast? = some '/' then "home.html".toList else []) = home at parsed
      split at parsed
      · cases parsed
      · split at parsed <;> cases parsed

-- but the check for `/../` is not made here, and the name can lead out of it
example : parseUri "/cgi-bin/../../bin/ls?-l".toList = .dynamic "./cgi-bin/../../bin/ls".toList "-l".toList := by decide

end SystemsLabs.Tiny
