import Aiotc.Library.Directories
import Aiotc.Library.Run

-- misc.cpp: `dirCheck`, called by several processes at the same time. The working directory is the
-- one that the program was started in.

namespace Dirs

open Directories

-- What the loop of `createDir` looks at: the path up to each '/' but one at its start. `done` is
-- what lies before the index.
def prefixes (done : List Char) : List Char → List (List Char)
  | []        => []
  | c :: rest =>
    if c = '/' ∧ done ≠ [] then
      done :: prefixes (done ++ [c]) rest
    else
      prefixes (done ++ [c]) rest

def dirName (dir : List Char) : List Char :=
  if dir.getLast? = some '/' then dir else dir ++ ['/']

-- The directories on a path.
def dirs (dir : List Char) : List (List Char) :=
  prefixes [] (dirName dir)

-- `todo` are the directories that the loop has not passed yet.
inductive Pc
  | opendir (dir : List Char)
  | access (todo : List (List Char))
  | mkdir (dirName : List Char) (todo : List (List Char))
  | done (ret : Int)
  deriving DecidableEq

def Pc.todo : Pc → List (List Char)
  | .opendir dir        => dirs dir
  | .access todo        => todo
  | .mkdir dirName todo => dirName :: todo
  | .done _             => []

structure State where
  fs : List Dir
  calls : List Pc

variable {cwd : Dir}

-- One look at the file system, or one change of it.
def dirCheck (cwd : Dir) (fs : List Dir) : Pc → Option (List Dir × Pc)
  | .opendir dir            => some (fs, if Exists fs cwd dir then .done 0 else .access (dirs dir))
  | .access []              => some (fs, .done 0)
  | .access (dirName :: todo) =>
    some (fs, if Exists fs cwd dirName then .access todo else .mkdir dirName todo)
  | .mkdir dirName todo     =>
    match mkdir fs cwd dirName with
    | some fs => some (fs, .access todo)
    | none    => some (fs, .done (-1))
  | .done _                 => none

def exec (cwd : Dir) (i : ℕ) (s : State) : Option State := do
  let pc ← s.calls[i]?
  let (fs, pc) ← dirCheck cwd s.fs pc
  return { fs := fs, calls := s.calls.set i pc }

def Step (cwd : Dir) (s : State) (i : ℕ) (s' : State) : Prop :=
  exec cwd i s = some s'

def init (fs : List Dir) (paths : List (List Char)) : State where
  fs := fs
  calls := paths.map .opendir

section Paths

variable {done cur rest dir p q : List Char} {ps : List (List Char)} {fs fs' : List Dir}

-- The next directory on a path.
def Next (p q : List Char) : Prop :=
  p ≠ [] ∧ ∃ n, '/' ∉ n ∧ q = p ++ '/' :: n

theorem isChain_prefixes (hp : p ≠ []) (hc : '/' ∉ cur) :
    List.IsChain Next (p :: prefixes (p ++ '/' :: cur) rest) := by
  induction rest generalizing p cur
  case nil            => exact .singleton _
  case cons c rest hi =>
    rw [prefixes]
    split
    case isTrue h =>
      apply List.isChain_cons_cons.mpr
      constructor
      case left  => exact ⟨hp, cur, hc, rfl⟩
      case right =>
        rw [h.left]
        exact hi (List.append_ne_nil_of_left_ne_nil hp _) List.not_mem_nil
    case isFalse h =>
      have hn : '/' ∉ cur ++ [c] := by
        have hs : c ≠ '/' := by simpa using h
        simp [hc, hs.symm]
      simpa using hi hp hn

theorem exists_of_mem_prefixes (h : p ∈ prefixes done rest) :
    p ≠ [] ∧ ∃ t, done ++ rest = p ++ '/' :: t := by
  induction rest generalizing done
  case nil            => simp [prefixes] at h
  case cons c rest hi =>
    rw [prefixes] at h
    split at h
    case isTrue hc =>
      rcases List.mem_cons.mp h with rfl | h
      · exact ⟨hc.right, rest, by rw [hc.left]⟩
      · simpa using hi h
    case isFalse => simpa using hi h

-- Where the path leads to a directory, all of its directories exist.
theorem exists_dirs (h : Exists fs cwd dir) : ∀ p ∈ dirs dir, Exists fs cwd p := by
  intro p hp
  have ⟨hn, t, ht⟩ := exists_of_mem_prefixes hp
  rw [List.nil_append, dirName] at ht
  split at ht
  case isTrue  => exact .of_append hn (ht ▸ h)
  case isFalse =>
    rcases List.eq_nil_or_concat' t with rfl | ⟨t, c, rfl⟩
    · have hd := (List.append_inj' ht rfl).left
      exact hd ▸ h
    · rw [← List.cons_append, ← List.append_assoc] at ht
      have hd := (List.append_inj' ht rfl).left
      exact .of_append hn (hd ▸ h)

-- The directories that are left to be made. The parent of the first is there.
structure Chained (cwd : Dir) (fs : List Dir) (todo : List (List Char)) : Prop where
  parent : ∀ p ∈ todo.head?, (parent fs cwd p).isSome
  chain  : todo.IsChain Next

theorem Chained.mono (h : Chained cwd fs ps) (hs : fs ⊆ fs') : Chained cwd fs' ps where
  parent p hp := parent_mono hs (h.parent p hp)
  chain       := h.chain

theorem Chained.tail (h : Chained cwd fs (p :: ps)) (he : Exists fs cwd p) : Chained cwd fs ps := by
  have hc := h.chain
  cases ps
  case nil       => exact ⟨by simp, .nil⟩
  case cons q ps =>
    have ⟨⟨hp, n, hn, hq⟩, hc⟩ := List.isChain_cons_cons.mp hc
    refine ⟨?_, hc⟩
    rintro _ ⟨⟩
    rw [hq, parent_append hp hn]
    exact he

theorem chained_prefixes (hc : '/' ∉ cur) (hd : done = cur ∨ done = '/' :: cur) :
    Chained cwd fs (prefixes done rest) := by
  induction rest generalizing cur done
  case nil            => exact ⟨by simp [prefixes], .nil⟩
  case cons c rest hi =>
    rw [prefixes]
    split
    case isTrue h =>
      constructor
      case parent =>
        rintro _ ⟨⟩
        rcases hd with rfl | rfl
        · exact parent_of_not_mem hc
        · exact parent_cons hc
      case chain => exact h.left ▸ isChain_prefixes h.right List.not_mem_nil
    case isFalse h =>
      by_cases hs : c = '/'
      case pos =>
        have hn : done = [] := by simpa [hs] using h
        exact hi List.not_mem_nil (.inr (by simp [hs, hn]))
      case neg =>
        apply @hi _ (cur ++ [c])
        · simp [hc, Ne.symm hs]
        · rcases hd with rfl | rfl <;> simp

theorem chained_dirs (dir : List Char) : Chained cwd fs (dirs dir) :=
  chained_prefixes List.not_mem_nil (.inl rfl)

end Paths

variable {fs fs' : List Dir} {paths : List (List Char)} {pc pc' : Pc} {s s' : State} {i : ℕ}
  {tr : List (State × ℕ)}

def Pc.returned : Pc → Bool
  | .done _ => true
  | _       => false

abbrev Returned (s : State) : Prop :=
  ∀ pc ∈ s.calls, pc.returned

theorem todo_of_returned (h : pc.returned) : pc.todo = [] := by
  cases pc <;> first | rfl | cases h

-- A directory that the call is about to make is still missing. If another call has made it, which
-- ends this one, the deeper directories of this one are there or still ahead of the others.
def Pc.Free (cwd : Dir) (fs : List Dir) (others : List Pc) : Pc → Prop
  | .mkdir dirName todo => ¬Exists fs cwd dirName ∨
      ∀ p ∈ todo, Exists fs cwd p ∨ ∃ pc ∈ others, p ∈ pc.todo
  | _                   => True

instance {others : List Pc} : (pc : Pc) → Decidable (pc.Free cwd fs others)
  | .mkdir _ _ => inferInstanceAs (Decidable (_ ∨ _))
  | .opendir _ => .isTrue trivial
  | .access _  => .isTrue trivial
  | .done _    => .isTrue trivial

def Unhindered (cwd : Dir) (s : State) (i : ℕ) : Prop :=
  ∀ pc ∈ s.calls[i]?, pc.Free cwd s.fs (s.calls.eraseIdx i)

instance : Decidable (Unhindered cwd s i) :=
  inferInstanceAs (Decidable (∀ pc ∈ s.calls[i]?, _))

structure Inv (cwd : Dir) (paths : List (List Char)) (s : State) : Prop where
  chained : ∀ pc ∈ s.calls, Chained cwd s.fs pc.todo
  ahead   : ∀ dir ∈ paths, ∀ p ∈ dirs dir, Exists s.fs cwd p ∨ ∃ pc ∈ s.calls, p ∈ pc.todo

theorem Inv.init : Inv cwd paths (init fs paths) where
  chained _ hc := by
    have ⟨dir, _, hc⟩ := List.mem_map.mp hc
    exact hc ▸ chained_dirs dir
  ahead dir hd p hp := .inr ⟨.opendir dir, List.mem_map_of_mem hd, hp⟩

-- What is done of a path, unless the call fails on a directory that is there.
theorem dirCheck_spec (hc : Chained cwd fs pc.todo) (h : dirCheck cwd fs pc = some (fs', pc')) :
    fs ⊆ fs' ∧ Chained cwd fs' pc'.todo ∧
      ((∀ p ∈ pc.todo, Exists fs' cwd p ∨ p ∈ pc'.todo) ∨
        ∃ dirName todo, pc = .mkdir dirName todo ∧ Exists fs cwd dirName ∧ fs' = fs) := by
  cases pc
  case opendir dir =>
    by_cases he : Exists fs cwd dir <;> simp only [dirCheck, he, if_true, if_false] at h <;> cases h
    case pos => exact ⟨fun _ => id, ⟨nofun, .nil⟩, .inl fun p hp => .inl (exists_dirs he p hp)⟩
    case neg => exact ⟨fun _ => id, hc, .inl fun p hp => .inr hp⟩
  case access todo =>
    cases todo
    case nil =>
      cases h
      exact ⟨fun _ => id, hc, .inl nofun⟩
    case cons dirName todo =>
      by_cases he : Exists fs cwd dirName <;> simp only [dirCheck, he, if_true, if_false] at h <;>
        cases h
      case pos =>
        exact ⟨fun _ => id, hc.tail he, .inl (List.forall_mem_cons.mpr ⟨.inl he, fun _ => .inr⟩)⟩
      case neg => exact ⟨fun _ => id, hc, .inl fun p hp => .inr hp⟩
  case mkdir dirName todo =>
    cases hm : mkdir fs cwd dirName <;> simp only [dirCheck, hm] at h <;> cases h
    case some =>
      have ⟨hs, he⟩ := mkdir_exists hm
      exact ⟨hs, (hc.mono hs).tail he, .inl (List.forall_mem_cons.mpr ⟨.inl he, fun _ => .inr⟩)⟩
    case none =>
      have he := exists_of_mkdir_eq_none (hc.parent dirName rfl) hm
      exact ⟨fun _ => id, ⟨nofun, .nil⟩, .inr ⟨dirName, todo, rfl, he, rfl⟩⟩
  case done => cases h

theorem Step.elim (e : Step cwd s i s') :
    ∃ pc fs' pc', s.calls[i]? = some pc ∧ dirCheck cwd s.fs pc = some (fs', pc') ∧
      s' = ⟨fs', s.calls.set i pc'⟩ := by
  have ⟨pc, hi, e⟩ := Option.bind_eq_some_iff.mp e
  have ⟨⟨fs', pc'⟩, hd, e⟩ := Option.bind_eq_some_iff.mp e
  exact ⟨pc, fs', pc', hi, hd, (Option.some.inj e).symm⟩

theorem Inv.step (h : Inv cwd paths s) (hu : Unhindered cwd s i) (e : Step cwd s i s') :
    Inv cwd paths s' := by
  have ⟨pc, fs', pc', hi, hd, hs⟩ := e.elim
  subst hs
  have ⟨hm, hc, hp⟩ := dirCheck_spec (h.chained pc (List.mem_of_getElem? hi)) hd
  constructor
  case chained =>
    intro c hm'
    rcases List.mem_or_eq_of_mem_set hm' with hm' | rfl
    · exact (h.chained c hm').mono hm
    · exact hc
  case ahead =>
    intro dir hdir p hdirs
    rcases h.ahead dir hdir p hdirs with he | ⟨c, hcm, hpc⟩
    · exact .inl (he.mono hm)
    · -- A call other than the one that takes the step still has what it had.
      have ho : ∀ c ∈ s.calls.eraseIdx i, p ∈ c.todo →
          Exists fs' cwd p ∨ ∃ c ∈ s.calls.set i pc', p ∈ c.todo := by
        intro c hcm hpc
        have ⟨j, hj, hcj⟩ := List.mem_eraseIdx_iff_getElem?.mp hcm
        have hs : (s.calls.set i pc')[j]? = some c := (List.getElem?_set_ne hj.symm).trans hcj
        exact .inr ⟨c, List.mem_of_getElem? hs, hpc⟩
      have ⟨j, hcj⟩ := List.mem_iff_getElem?.mp hcm
      by_cases hj : j = i
      case neg => exact ho c (List.mem_eraseIdx_iff_getElem?.mpr ⟨j, hj, hcj⟩) hpc
      case pos =>
        have hpc : p ∈ pc.todo := by
          rw [hj, hi, Option.some.injEq] at hcj
          exact hcj ▸ hpc
        rcases hp with hp | ⟨dirName, todo, rfl, he, rfl⟩
        · have hl := (List.getElem?_eq_some_iff.mp hi).choose
          exact (hp p hpc).imp_right fun hp => ⟨pc', List.mem_set hl _, hp⟩
        · rcases List.mem_cons.mp hpc with rfl | hpt
          · exact .inl he
          · rcases hu _ hi with hn | ht
            · exact absurd he hn
            · rcases ht p hpt with hep | ⟨c, hcm, hpc⟩
              · exact .inl hep
              · exact ho c hcm hpc

theorem exists_of_unhindered (r : Run (Step cwd) (Dirs.init fs paths) tr s)
    (hc : Run.Meets (Unhindered cwd) tr) (hr : Returned s) :
    ∀ dir ∈ paths, ∀ p ∈ dirs dir, Exists s.fs cwd p := by
  intro dir hd p hp
  have ha := Run.always_of_meets (I := Inv cwd paths) (fun _ _ _ h hc e => h.step hc e) r .init hc
  have h := ha.last
  rcases h.ahead dir hd p hp with he | ⟨pc, hm, hp⟩
  · exact he
  · simp [todo_of_returned (hr pc hm)] at hp

section

-- One call makes a, the other one fails on it.
def collision : List ℕ :=
  [0, 1, 0, 1, 0, 1, 0, 0, 0]

-- Both calls are for the same directory.
theorem exists_of_unhindered_witness :
    ∃ s, Run (Step []) (init [] ["a/b".toList, "a/b".toList])
        (Run.partialTrace (exec []) collision (init [] ["a/b".toList, "a/b".toList])) s ∧
      ∀ dir ∈ ["a/b".toList, "a/b".toList], ∀ p ∈ dirs dir, Exists s.fs [] p := by
  have ⟨s, r, hs⟩ := Run.exists_partialTrace (exec []) collision
    (init [] ["a/b".toList, "a/b".toList]) (fun s => Returned s) (by decide)
  exact ⟨s, r, exists_of_unhindered r (by decide) (of_decide_eq_true hs)⟩

-- The other one had a second directory of its own to make.
theorem not_exists_of_returned :
    ¬∀ (cwd : Dir) (fs : List Dir) (p q : List Char) (tr : List (State × ℕ)) (s : State),
      Run (Step cwd) (init fs [p, q]) tr s → Returned s →
        ∀ dir ∈ [p, q], ∀ d ∈ dirs dir, Exists s.fs cwd d := by
  intro h
  have ⟨s, r, hs⟩ := Run.exists_partialTrace (exec []) collision
    (init [] ["a/b".toList, "a/c".toList])
    (fun s => Returned s ∧ ¬Exists s.fs [] "a/c".toList) (by decide)
  have ⟨hr, hn⟩ := of_decide_eq_true hs
  exact hn (h [] [] _ _ _ s r hr "a/c".toList (by simp) "a/c".toList (by decide))

end

end Dirs
