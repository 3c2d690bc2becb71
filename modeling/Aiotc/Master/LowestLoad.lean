import Aiotc.Master.Attach
import Aiotc.Share.Traverse

-- master.cpp: the search for the slave that is given the next object.

open Heap Share Select

namespace Master

namespace LowestLoad

-- `_getlowestLoadSlave` with the pointers that it works on. `lowest` is `*ppLowestSlave`.
def getlowestLoadSlave : NodeCallback SlaveParam Ptr := fun p s lowest => do
  let c ← s.nodes p
  let slave := c.data.name
  match lowest with
  | none   =>
    if slave.online ≠ 0 ∧ slave.systemInit ≠ 0 ∧ slave.load < SLAVE_LOAD_MAX then
      return (0, s, some p)
    else
      return (0, s, none)
  | some l =>
    let last ← s.nodes l
    if slave.load < last.data.name.load ∧ slave.online ≠ 0 ∧ slave.systemInit ≠ 0 then
      return (0, s, some p)
    else
      return (0, s, some l)

def getLowestLoadSlave (s : Store SlaveParam) : Option Ptr := do
  let (_, _, lowest) ← traverseQueue getlowestLoadSlave s none
  return lowest

def slaves (xs : List (Addr × NodeData SlaveParam)) : SlaveQueue :=
  xs.map fun x => (x.1, x.2.name)

variable {s : Store SlaveParam} {q : AbsQueue SlaveParam}
  {us vs : List (Addr × NodeData SlaveParam)} {a : Addr} {d : NodeData SlaveParam}

-- A node that the loop has passed can still be read.
theorem nodes_of_mem (h : Represents s q) (hm : (a, d) ∈ q.nodes) :
    ∃ r, s.nodes a = some ⟨d, r⟩ := by
  have ⟨us, vs, hq⟩ := List.append_of_mem hm
  have h : Represents s ⟨us ++ (a, d) :: vs, q.useMax⟩ := by rwa [← hq]
  exact ⟨_, h.nodes_eq⟩

theorem getlowestLoadSlave_eq (h : Represents s q) (hq : us ++ (a, d) :: vs = q.nodes) :
    getlowestLoadSlave a s ((Master.getLowestLoadSlave (slaves us)).map Prod.fst) =
      some (0, s, (Master.getLowestLoadSlave (slaves (us ++ [(a, d)]))).map Prod.fst) := by
  obtain ⟨r, ha⟩ := nodes_of_mem h (hq ▸ by simp : (a, d) ∈ q.nodes)
  have hs : Master.getLowestLoadSlave (slaves (us ++ [(a, d)])) =
      Master.getlowestLoadSlave (Master.getLowestLoadSlave (slaves us)) (a, d.name) := by
    simp [slaves, Master.getLowestLoadSlave]
  rw [hs]
  simp only [getlowestLoadSlave, ha, bind, Option.bind_some, Master.getlowestLoadSlave]
  cases hl : Master.getLowestLoadSlave (slaves us)
  case none =>
    simp only [Option.map_none]
    split <;> rfl
  case some last =>
    obtain ⟨y, hy, rfl⟩ := List.mem_map.mp (getLowestLoadSlave_some hl).left
    obtain ⟨r, hr⟩ := nodes_of_mem h (hq ▸ List.mem_append_left _ hy : (y.1, y.2) ∈ q.nodes)
    simp only [Option.map_some, hr, Option.bind_some]
    split <;> rfl

-- The traversal computes what the fold over the list does.
theorem getLowestLoadSlave_eq (h : Represents s q) :
    getLowestLoadSlave s = some ((Master.getLowestLoadSlave (slaves q.nodes)).map Prod.fst) := by
  let I us vs (s' : Store SlaveParam) (lowest : Ptr) := us ++ vs = q.nodes ∧ s' = s ∧
    lowest = (Master.getLowestLoadSlave (slaves us)).map Prod.fst
  have step : ∀ us a d vs s' lowest, I us ((a, d) :: vs) s' lowest →
      ∃ s'' lowest', s'.nodes a = some ⟨d, (addrs vs).head?⟩ ∧
        getlowestLoadSlave a s' lowest = some (0, s'', lowest') ∧
        I (us ++ [(a, d)]) vs s'' lowest' := by
    intro us a d vs s' lowest ⟨hq, hs, hl⟩
    have h' : Represents s ⟨us ++ (a, d) :: vs, q.useMax⟩ := by rwa [hq]
    rw [hs, hl]
    exact ⟨s, _, h'.nodes_eq, getlowestLoadSlave_eq h hq, by simpa using hq, rfl, rfl⟩
  have ⟨s', lowest, he, _, _, hl⟩ := traverseQueue_rule I step h (t := none) ⟨rfl, rfl, rfl⟩
  simp [getLowestLoadSlave, he, hl]

theorem lowest_load (h : Represents s q) :
    ∃ lowest, getLowestLoadSlave s = some lowest ∧
      (lowest = none ↔ ∀ x ∈ q.nodes, eligible x.2.name = false) ∧
      ∀ a ∈ lowest, ∃ us d vs, q.nodes = us ++ (a, d) :: vs ∧
        First (fun x => eligible x.2.name) (fun x => x.2.name.load) us (a, d) vs := by
  refine ⟨_, getLowestLoadSlave_eq h, ?_, ?_⟩
  case refine_1 =>
    rw [Option.map_eq_none_iff, Master.getLowestLoadSlave_eq, least_eq_none_iff]
    exact List.forall_mem_map
  case refine_2 =>
    intro a ha
    obtain ⟨x, hx, rfl⟩ := Option.map_eq_some_iff.mp ha
    rw [Master.getLowestLoadSlave_eq] at hx
    have ⟨us', vs', hq, hf⟩ := exists_first hx
    obtain ⟨us, ys, hn, rfl, hy⟩ := List.map_eq_append_iff.mp hq
    obtain ⟨y, vs, rfl, rfl, rfl⟩ := List.map_eq_cons_iff.mp hy
    refine ⟨us, y.2, vs, hn, hf.eligible, fun z hz => ?_, fun z hz => ?_⟩
    case refine_1 => exact hf.before (z.1, z.2.name) (List.mem_map_of_mem hz)
    case refine_2 => exact hf.behind (z.1, z.2.name) (List.mem_map_of_mem hz)

section

def threeSlaves : AbsQueue SlaveParam where
  nodes := [(8, { name := ⟨"10.0.0.1", "", 80, 90, 1, 40, 0, 5⟩ }),
    (16, { name := ⟨"10.0.0.2", "", 80, 90, 1, 60, 5, 0⟩ }),
    (24, { name := ⟨"10.0.0.3", "", 80, 90, 1, 60, 7, 0⟩ })]

def threeSlaveNodes : Store SlaveParam where
  nodes
    | 8  => some ⟨{ name := ⟨"10.0.0.1", "", 80, 90, 1, 40, 0, 5⟩ }, some 16⟩
    | 16 => some ⟨{ name := ⟨"10.0.0.2", "", 80, 90, 1, 60, 5, 0⟩ }, some 24⟩
    | 24 => some ⟨{ name := ⟨"10.0.0.3", "", 80, 90, 1, 60, 7, 0⟩ }, none⟩
    | _  => none
  blocks := fun _ => false
  queue := { head := some 8, tail := some 24, queLen := 3 }

-- The slave with the lowest load is offline, and of the other two the first is taken.
theorem lowest_load_witness :
    getLowestLoadSlave threeSlaveNodes = some (some 16) ∧ ∃ us d vs,
      threeSlaves.nodes = us ++ (16, d) :: vs ∧
        First (fun x => eligible x.2.name) (fun x => x.2.name.load) us (16, d) vs := by
  have hr : Represents threeSlaveNodes threeSlaves := by
    refine ⟨?_, rfl, rfl, rfl⟩
    exact ⟨rfl, some 16, rfl, rfl, some 24, rfl, rfl, none, rfl, rfl⟩
  have ⟨lowest, he, _, hf⟩ := lowest_load hr
  cases he
  exact ⟨rfl, hf 16 rfl⟩

end

end LowestLoad

end Master
