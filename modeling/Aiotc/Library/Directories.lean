import Mathlib.Data.List.Basic

-- The directories of a file system: looking a path up, and making a directory. There are no links.

namespace Directories

abbrev Name :=
  List Char

-- A directory by the names that lead to it from the root.
abbrev Dir :=
  List Name

variable {fs fs' : List Dir} {cwd d e : Dir} {n : Name} {ns : List Name} {p q : List Char}

def enter (fs : List Dir) (d : Dir) (n : Name) : Option Dir :=
  if n = [] ∨ n = ['.'] then
    some d
  else if n = ['.', '.'] then
    some d.dropLast
  else if d ++ [n] ∈ fs then
    some (d ++ [n])
  else
    none

def names (p : List Char) : List Name :=
  p.splitOn '/'

def start (cwd : Dir) (p : List Char) : Dir :=
  if p.head? = some '/' then [] else cwd

def walk (fs : List Dir) (d : Dir) (ns : List Name) : Option Dir :=
  ns.foldlM (enter fs) d

def resolve (fs : List Dir) (cwd : Dir) (p : List Char) : Option Dir :=
  walk fs (start cwd p) (names p)

-- The directory in which the last name of the path is looked up.
def parent (fs : List Dir) (cwd : Dir) (p : List Char) : Option Dir :=
  walk fs (start cwd p) (names p).dropLast

-- There is none for a path that leads somewhere, or whose parent is missing.
def mkdir (fs : List Dir) (cwd : Dir) (p : List Char) : Option (List Dir) := do
  let d ← parent fs cwd p
  let n ← (names p).getLast?
  if (enter fs d n).isSome then none else some (fs ++ [d ++ [n]])

def Exists (fs : List Dir) (cwd : Dir) (p : List Char) : Prop :=
  (resolve fs cwd p).isSome

instance : Decidable (Exists fs cwd p) :=
  inferInstanceAs (Decidable (_ = true))

theorem enter_mono (h : fs ⊆ fs') (he : enter fs d n = some e) : enter fs' d n = some e := by
  grind [enter]

theorem walk_mono (h : fs ⊆ fs') (hw : walk fs d ns = some e) : walk fs' d ns = some e := by
  induction ns generalizing d
  case nil          => exact hw
  case cons n ns hi =>
    have ⟨d', hn, hw⟩ := Option.bind_eq_some_iff.mp hw
    exact Option.bind_eq_some_iff.mpr ⟨d', enter_mono h hn, hi hw⟩

theorem walk_append {ns' : List Name} :
    walk fs d (ns ++ ns') = (walk fs d ns).bind (walk fs · ns') :=
  List.foldlM_append

theorem Exists.mono (h : fs ⊆ fs') (he : Exists fs cwd p) : Exists fs' cwd p := by
  have ⟨d, hd⟩ := Option.isSome_iff_exists.mp he
  exact Option.isSome_iff_exists.mpr ⟨d, walk_mono h hd⟩

theorem parent_mono (h : fs ⊆ fs') (hp : (parent fs cwd p).isSome) : (parent fs' cwd p).isSome := by
  have ⟨d, hd⟩ := Option.isSome_iff_exists.mp hp
  exact Option.isSome_iff_exists.mpr ⟨d, walk_mono h hd⟩

theorem names_append : names (p ++ '/' :: q) = names p ++ names q :=
  List.splitOn_append_cons_self p q

theorem start_append (h : p ≠ []) : start cwd (p ++ q) = start cwd p := by
  cases p
  case nil  => contradiction
  case cons => rfl

-- Whatever leads to a directory exists with it.
theorem Exists.of_append (h : p ≠ []) (he : Exists fs cwd (p ++ '/' :: q)) : Exists fs cwd p := by
  rw [Exists, resolve, names_append, start_append h, walk_append] at he
  have ⟨_, he⟩ := Option.isSome_iff_exists.mp he
  have ⟨d, hd, _⟩ := Option.bind_eq_some_iff.mp he
  exact Option.isSome_iff_exists.mpr ⟨d, hd⟩

theorem parent_append (h : p ≠ []) (hn : '/' ∉ n) :
    parent fs cwd (p ++ '/' :: n) = resolve fs cwd p := by
  rw [parent, start_append h, names_append, names, names, List.splitOn_eq_singleton hn,
    List.dropLast_concat, resolve, names]

theorem parent_of_not_mem (h : '/' ∉ p) : (parent fs cwd p).isSome := by
  rw [parent, names, List.splitOn_eq_singleton h]
  rfl

theorem parent_cons (h : '/' ∉ p) : (parent fs cwd ('/' :: p)).isSome := by
  have hn : names ('/' :: p) = [[], p] := by
    rw [names, List.splitOn_cons_eq_if_modifyHead, List.splitOn_eq_singleton h]
    rfl
  rw [parent, hn]
  rfl

-- The last step of a lookup.
theorem resolve_of_parent (h : parent fs cwd p = some d) :
    ∃ n, (names p).getLast? = some n ∧ resolve fs cwd p = enter fs d n := by
  have hn : names p ≠ [] := List.splitOn_ne_nil _ _
  have hl := List.dropLast_concat_getLast hn
  use (names p).getLast hn, List.getLast?_eq_some_getLast hn
  generalize (names p).getLast hn = n at hl
  rw [resolve, ← hl, walk_append, ← parent, h]
  simp [walk]

theorem mkdir_cases (h : parent fs cwd p = some d) :
    (Exists fs cwd p ∧ mkdir fs cwd p = none) ∨
      ∃ n, enter fs d n = none ∧ (names p).getLast? = some n ∧
        mkdir fs cwd p = some (fs ++ [d ++ [n]]) := by
  have ⟨n, hn, hr⟩ := resolve_of_parent h
  cases he : enter fs d n
  case some e => exact .inl (by simp [Exists, mkdir, h, hn, hr, he])
  case none   => exact .inr ⟨n, he, hn, by simp [mkdir, h, hn, he]⟩

theorem mkdir_exists (h : mkdir fs cwd p = some fs') : fs ⊆ fs' ∧ Exists fs' cwd p := by
  have ⟨d, hd, _⟩ := Option.bind_eq_some_iff.mp h
  rcases mkdir_cases hd with ⟨_, hn⟩ | ⟨n, he, hn, hm⟩
  · simp [hn] at h
  · have hf : fs ++ [d ++ [n]] = fs' := by simpa [hm] using h
    have hs : fs ⊆ fs' := hf ▸ List.subset_append_left _ _
    have ⟨n', hn', hr⟩ := resolve_of_parent (walk_mono hs hd)
    rw [hn, Option.some.injEq] at hn'
    rw [Exists, hr, ← hn', ← hf]
    exact ⟨hf ▸ hs, by grind [enter]⟩

-- With a parent a directory is either there or can be made.
theorem exists_of_mkdir_eq_none (hp : (parent fs cwd p).isSome) (h : mkdir fs cwd p = none) :
    Exists fs cwd p := by
  have ⟨d, hd⟩ := Option.isSome_iff_exists.mp hp
  rcases mkdir_cases hd with ⟨he, _⟩ | ⟨_, _, _, hm⟩
  · exact he
  · simp [hm] at h

end Directories
