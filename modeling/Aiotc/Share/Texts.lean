import Aiotc.Json.RoundTrip

-- share.cpp: the functions that look something up in a text or take something out of it. What the
-- program knows of these texts are the trees in them.

open Reader

-- What is deleted in place, and the items of an array, in the trees of Share.Json

section

variable {α : Type*}

def updateFirst (p : α → Bool) (f : α → α) : List α → List α
  | []     => []
  | x :: l => if p x then f x :: l else x :: updateFirst p f l

theorem mem_updateFirst {p : α → Bool} {f : α → α} {l : List α} {x : α}
    (h : x ∈ updateFirst p f l) : x ∈ l ∨ ∃ y ∈ l, x = f y := by
  induction l
  case nil => exact absurd h List.not_mem_nil
  case cons y l hi =>
    rw [updateFirst] at h
    split at h
    case isTrue =>
      rcases List.mem_cons.mp h with rfl | h
      · exact .inr ⟨y, List.mem_cons_self, rfl⟩
      · exact .inl (List.mem_cons_of_mem y h)
    case isFalse =>
      rcases List.mem_cons.mp h with rfl | h
      · exact .inl List.mem_cons_self
      · rcases hi h with h | ⟨z, hz, rfl⟩
        · exact .inl (List.mem_cons_of_mem y h)
        · exact .inr ⟨z, List.mem_cons_of_mem y hz, rfl⟩

theorem map_updateFirst {β : Type*} {p : α → Bool} {q : β → Bool} {f : α → α} {g : β → β}
    {m : α → β} (hp : ∀ x, q (m x) = p x) (hf : ∀ x, m (f x) = g (m x)) (l : List α) :
    (updateFirst p f l).map m = updateFirst q g (l.map m) := by
  induction l
  case nil         => rfl
  case cons x l hi =>
    rw [updateFirst, List.map_cons, updateFirst, hp]
    split
    case isTrue  => rw [List.map_cons, hf]
    case isFalse => rw [List.map_cons, hi]

end

namespace CJson

def child : CJson → List CJson
  | array child  => child
  | object child => child.map Prod.snd
  | _            => []

-- The item that is deleted is the one that `names` lead to.
def deleteSub : List CStr → CJson → CJson
  | [], j                                 => j
  | [nameSub1], j                         => j.deleteItemFromObject nameSub1
  | nameSub1 :: nameSub2 :: names, object l =>
    object (updateFirst (strcasecmp ·.1 nameSub1)
      (fun x => (x.1, deleteSub (nameSub2 :: names) x.2)) l)
  | _ :: _ :: _, j                        => j

end CJson

namespace JsonText

variable {D : Type}

namespace Item

def child : Item D → List (Item D)
  | array child  => child
  | object child => child.map Prod.snd
  | _            => []

def getObjectItem (string : CStr) : Item D → Option (Item D)
  | object child => (child.find? (CJson.strcasecmp ·.1 string)).map Prod.snd
  | _            => none

def deleteItemFromObject (string : CStr) : Item D → Item D
  | object child => object (child.eraseP (CJson.strcasecmp ·.1 string))
  | item         => item

def valueint : Item D → Int
  | number i _ => i
  | true       => 1
  | _          => 0

def valuestring : Item D → Option CStr
  | string s => some s
  | _        => none

def getSub (names : List CStr) (item : Item D) : Option (Item D) :=
  names.foldlM (fun item name => item.getObjectItem name) item

def deleteSub : List CStr → Item D → Item D
  | [], item                              => item
  | [nameSub1], item                      => item.deleteItemFromObject nameSub1
  | nameSub1 :: nameSub2 :: names, object l =>
    object (updateFirst (CJson.strcasecmp ·.1 nameSub1)
      (fun x => (x.1, deleteSub (nameSub2 :: names) x.2)) l)
  | _ :: _ :: _, item                     => item

mutual

-- The doubles are forgotten.
def toCJson : Item D → CJson
  | null         => .null
  | false        => .false
  | true         => .true
  | number i _   => .number i
  | string s     => .string s
  | array child  => .array (toCJsons child)
  | object child => .object (toMembers child)

def toCJsons : List (Item D) → List CJson
  | []            => []
  | item :: child => item.toCJson :: toCJsons child

def toMembers : List (CStr × Item D) → List (CStr × CJson)
  | []                    => []
  | (name, item) :: child => (name, item.toCJson) :: toMembers child

end

end Item

-- A `char *`, and the results of functions on it. `none` is an access outside of the memory.
abbrev Buf := Option CStr

namespace Texts

section

variable (D) [Double D]

def parse (buf : Buf) : Option (Option (Item D)) :=
  match buf with
  | none       => some none
  | some value =>
    match (cJSON_Parse value : Parsed (Item D)) with
    | .ok item _ => some (some item)
    | .error _   => some none
    | .fault     => none

variable {D}

def print (item : Option (Item D)) : Option Buf :=
  match item with
  | none      => some none
  | some item => (cJSON_Print item).map some

-- Where the names lead to. Each is copied to `name[256]`, and `none` is a copy without a NUL.
def findSub : List CStr → Option (Item D) → Option (Option (Item D))
  | [], pSub                    => some pSub
  | _ :: _, none                => some none
  | nameSub :: names, some pSub =>
    if nameSub.length < 256 then findSub names (pSub.getObjectItem nameSub) else none

-- `names` are those in front of the first that is NULL.
def getSub (names : List CStr) (root : Option (Item D)) : Option (Option (Item D)) :=
  if names = [] then some none else findSub names root

variable (D)

def getIntValFromJson (buf : Buf) (names : List CStr) : Option Int := do
  let root ← parse D buf
  let pSub ← getSub names root
  return (pSub.map Item.valueint).getD (-1)

def getStrValFromJson (buf : Buf) (names : List CStr) : Option Buf := do
  let root ← parse D buf
  let pSub ← getSub names root
  match pSub.bind Item.valuestring with
  | none        => return none
  | some valTmp => return some (← lenBlock ((valTmp.length + 1) / 1024 * 1024 + 1024) valTmp)

-- What is written to `pInt`. There are as many numbers as it returns.
def getIntValFromArray (buf : Buf) (names : List CStr) (max : Int) : Option (List Int) := do
  let root ← parse D buf
  match ← getSub names root with
  | none        => return []
  | some pArray => return (pArray.child.take max.toNat).map Item.valueint

def getObjBufFromJson (buf : Buf) (names : List CStr) : Option Buf := do
  let root ← parse D buf
  print (← getSub names root)

def getBufFromArray (buf : Buf) (names : List CStr) (index : Int) : Option Buf := do
  let root ← parse D buf
  match ← findSub names root with
  | none        => return none
  | some pArray =>
    if 0 ≤ index ∧ index < pArray.child.length then
      print (pArray.child[index.toNat]?)
    else
      return none

def delObjJson (buf : Buf) (names : List CStr) : Option Buf := do
  let root ← parse D buf
  let _ ← findSub names root
  print (root.map (Item.deleteSub names))

-- What makes a text out of another
inductive Op
  | obj (names : List CStr)
  | item (names : List CStr) (index : Int)
  | del (names : List CStr)

def Op.names : Op → List CStr
  | obj names | item names _ | del names => names

def step (buf : Buf) : Op → Option Buf
  | .obj names        => getObjBufFromJson D buf names
  | .item names index => getBufFromArray D buf names index
  | .del names        => delObjJson D buf names

end

end Texts

-- The same on trees
def specStep (text : Text) : Texts.Op → Text
  | .obj names        => if names = [] then none else getObjBufFromJson text names
  | .item names index => do
    let j ← getSubFromJson text names
    if 0 ≤ index then j.child[index.toNat]? else none
  | .del names        => text.map (CJson.deleteSub names)

-- The names that fit in `name[256]`
def Fit (names : List CStr) : Prop :=
  ∀ name ∈ names, name.length < 256
  deriving Decidable

-- What is printed of an item, and each of its strings, has a size that is an int.
def Item.Roomy (item : Item D) : Prop :=
  item.room 0 + 1024 < 2 ^ 31
  deriving Decidable

section

variable {N : Int → D → Prop} {item x : Item D} {names : List CStr} {string nameSub1 : CStr}

namespace Plain

theorem imp {N' : Int → D → Prop} (h : Plain N item) (hN : ∀ i d, N i d → N' i d) :
    Plain N' item := by
  induction h
  case number h      => exact .number (hN _ _ h)
  case string h      => exact .string h
  case array hi      => exact .array hi
  case object hn _ hi => exact .object hn hi
  all_goals constructor

theorem child (h : Plain N item) (hx : x ∈ item.child) : Plain N x := by
  cases h
  case array h    => exact h x hx
  case object h   =>
    obtain ⟨y, hy, rfl⟩ := List.mem_map.mp hx
    exact h y hy
  all_goals exact absurd hx List.not_mem_nil

theorem getObjectItem (h : Plain N item) (hx : item.getObjectItem string = some x) :
    Plain N x := by
  cases h
  case object h   =>
    obtain ⟨y, hy, rfl⟩ := Option.map_eq_some_iff.mp hx
    exact h y (List.mem_of_find?_eq_some hy)
  all_goals exact absurd hx (by simp [Item.getObjectItem])

theorem getSub (h : Plain N item) (hx : item.getSub names = some x) : Plain N x := by
  induction names generalizing item
  case nil =>
    cases hx
    exact h
  case cons name names hi =>
    obtain ⟨y, hy, hx⟩ := Option.bind_eq_some_iff.mp hx
    exact hi (h.getObjectItem hy) hx

theorem deleteSub (h : Plain N item) : Plain N (item.deleteSub names) := by
  induction names generalizing item
  case nil => exact h
  case cons nameSub1 names hi =>
    cases names
    case nil =>
      cases h
      case object hn h =>
        exact .object (fun y hy => hn y (List.mem_of_mem_eraseP hy))
          fun y hy => h y (List.mem_of_mem_eraseP hy)
      case array h     => exact .array h
      case number h    => exact .number h
      case string h    => exact .string h
      all_goals constructor
    case cons nameSub2 names =>
      cases h
      case object l hn h =>
        rw [Item.deleteSub]
        refine .object (fun y hy => ?_) fun y hy => ?_
        · rcases mem_updateFirst hy with hy | ⟨z, hz, rfl⟩
          · exact hn y hy
          · exact hn z hz
        · rcases mem_updateFirst hy with hy | ⟨z, hz, rfl⟩
          · exact h y hy
          · exact hi (h z hz)
      case array h       => exact .array h
      case number h      => exact .number h
      case string h      => exact .string h
      all_goals constructor

theorem valueint (h : Plain Bounded item) : INT_MIN ≤ item.valueint ∧ item.valueint ≤ INT_MAX := by
  cases h
  case number h => exact h
  all_goals simp [Item.valueint, INT_MIN, INT_MAX]

-- What is deeper in a text has more tabs in front of it.
theorem room_mono {d d' : ℕ} (h : Plain N item) (hd : d ≤ d') : item.room d ≤ item.room d' := by
  induction h generalizing d d'
  case array child h hi =>
    have hle : Item.entriesRoom (d + 1) child ≤ Item.entriesRoom (d' + 1) child := by
      clear h
      induction child
      case nil            => exact Nat.le_refl _
      case cons y child he =>
        have hy := hi y List.mem_cons_self (Nat.add_le_add_right hd 1)
        have he := he fun z hz => hi z (List.mem_cons_of_mem _ hz)
        simp only [Item.entriesRoom]
        omega
    simp only [Item.room]
    omega
  case object child hn h hi =>
    have hle : Item.membersRoom (d + 1) child ≤ Item.membersRoom (d' + 1) child := by
      clear hn h
      induction child
      case nil            => exact Nat.le_refl _
      case cons y child he =>
        have hy := hi y List.mem_cons_self (Nat.add_le_add_right hd 1)
        have he := he fun z hz => hi z (List.mem_cons_of_mem _ hz)
        simp only [Item.membersRoom]
        omega
    simp only [Item.room]
    omega
  all_goals exact Nat.le_refl _

theorem room_child (h : Plain N item) (hx : x ∈ item.child) : x.room 0 ≤ item.room 0 := by
  have hm := (h.child hx).room_mono (Nat.zero_le (0 + 1))
  cases h
  case array child h =>
    have hle := Item.room_le_entriesRoom (0 + 1) hx
    simp only [Item.room, Item.child] at hle ⊢
    omega
  case object h =>
    obtain ⟨y, hy, rfl⟩ := List.mem_map.mp hx
    have hle := Item.room_le_membersRoom (0 + 1) hy
    simp only [Item.room]
    omega
  all_goals exact absurd hx List.not_mem_nil

theorem room_getSub (h : Plain N item) (hx : item.getSub names = some x) :
    x.room 0 ≤ item.room 0 := by
  induction names generalizing item
  case nil =>
    cases hx
    exact Nat.le_refl _
  case cons name names hi =>
    obtain ⟨y, hy, hx⟩ := Option.bind_eq_some_iff.mp hx
    refine (hi (h.getObjectItem hy) hx).trans (h.room_child ?_)
    cases item
    case object child =>
      obtain ⟨z, hz, rfl⟩ := Option.map_eq_some_iff.mp hy
      exact List.mem_map_of_mem (List.mem_of_find?_eq_some hz)
    all_goals exact absurd hy (by simp [Item.getObjectItem])

end Plain

namespace Item

theorem membersRoom_eraseP (p : CStr × Item D → Bool) (d : ℕ) (child : List (CStr × Item D)) :
    membersRoom d (child.eraseP p) ≤ membersRoom d child := by
  induction child
  case nil             => exact Nat.le_refl _
  case cons y child hi =>
    rw [List.eraseP_cons, membersRoom]
    cases p y
    case true  =>
      rw [cond_true]
      omega
    case false =>
      rw [cond_false, membersRoom]
      omega

theorem membersRoom_updateFirst {p : CStr × Item D → Bool} {f : Item D → Item D} {d : ℕ}
    (hf : ∀ x, (f x).room d ≤ x.room d) (child : List (CStr × Item D)) :
    membersRoom d (updateFirst p (fun x => (x.1, f x.2)) child) ≤ membersRoom d child := by
  induction child
  case nil             => exact Nat.le_refl _
  case cons y child hi =>
    have hy := hf y.2
    rw [updateFirst, membersRoom]
    split
    case isTrue  =>
      rw [membersRoom]
      omega
    case isFalse =>
      rw [membersRoom]
      omega

theorem room_deleteSub {d : ℕ} (item : Item D) : (item.deleteSub names).room d ≤ item.room d := by
  induction names generalizing item d
  case nil => exact Nat.le_refl _
  case cons nameSub1 names hi =>
    cases names
    case nil =>
      cases item
      case object child =>
        have := membersRoom_eraseP (CJson.strcasecmp ·.1 nameSub1) (d + 1) child
        simp only [deleteSub, deleteItemFromObject, room]
        omega
      all_goals exact Nat.le_refl _
    case cons nameSub2 names =>
      cases item
      case object child =>
        have := membersRoom_updateFirst (p := (CJson.strcasecmp ·.1 nameSub1))
          (fun x => hi (d := d + 1) x) child
        simp only [deleteSub, room]
        omega
      all_goals exact Nat.le_refl _

theorem length_valuestring {s : CStr} (h : item.valuestring = some s) :
    s.length + 3 ≤ item.room 0 := by
  cases item
  case string str =>
    cases h
    have hl (l : CStr) : l.length ≤ (l.map printLen).sum := by
      induction l
      case nil         => exact Nat.le_refl _
      case cons c l hi =>
        simp only [List.length_cons, List.map_cons, List.sum_cons, printLen]
        omega
    exact Nat.add_le_add_right (hl s) 3
  all_goals exact absurd h (by simp [valuestring])

theorem toCJsons_eq (child : List (Item D)) : toCJsons child = child.map toCJson := by
  induction child
  case nil             => rfl
  case cons x child hi => rw [toCJsons, hi, List.map_cons]

theorem toMembers_eq (child : List (CStr × Item D)) :
    toMembers child = child.map fun x => (x.1, x.2.toCJson) := by
  induction child
  case nil             => rfl
  case cons x child hi => rw [toMembers, hi, List.map_cons]

theorem valueint_toCJson (item : Item D) : item.toCJson.valueint = item.valueint := by
  cases item <;> rfl

theorem valuestring_toCJson (item : Item D) : item.toCJson.valuestring = item.valuestring := by
  cases item <;> rfl

theorem child_toCJson (item : Item D) : item.toCJson.child = item.child.map toCJson := by
  cases item
  case array child  => exact toCJsons_eq child
  case object child =>
    rw [toCJson, toMembers_eq, CJson.child, Item.child, List.map_map, List.map_map]
    rfl
  all_goals rfl

theorem getObjectItem_toCJson (item : Item D) :
    item.toCJson.getObjectItem string = (item.getObjectItem string).map toCJson := by
  cases item
  case object child =>
    rw [toCJson, toMembers_eq, CJson.getObjectItem, List.find?_map, getObjectItem, Option.map_map,
      Option.map_map]
    rfl
  all_goals rfl

theorem getSub_toCJson (item : Item D) :
    names.foldlM (fun j name => CJson.getObjectItem name j) item.toCJson =
      (item.getSub names).map toCJson := by
  induction names generalizing item
  case nil => rfl
  case cons name names hi =>
    rw [getSub, List.foldlM_cons, List.foldlM_cons, getObjectItem_toCJson]
    cases item.getObjectItem name
    case none   => rfl
    case some x => exact hi x

theorem deleteSub_toCJson (item : Item D) :
    item.toCJson.deleteSub names = (item.deleteSub names).toCJson := by
  induction names generalizing item
  case nil => rfl
  case cons nameSub1 names hi =>
    cases names
    case nil =>
      cases item
      case object child =>
        rw [CJson.deleteSub, deleteSub, deleteItemFromObject, toCJson, toCJson, toMembers_eq,
          toMembers_eq, CJson.deleteItemFromObject, List.eraseP_map]
        rfl
      all_goals rfl
    case cons nameSub2 names =>
      cases item
      case object child =>
        rw [deleteSub, toCJson, toCJson, toMembers_eq, toMembers_eq, CJson.deleteSub]
        refine congrArg CJson.object (map_updateFirst (fun _ => rfl) (fun x => ?_) child).symm
        exact Prod.ext rfl (hi x.2).symm
      all_goals rfl

end Item

end

section

variable {N : Int → D → Prop} {buf : Buf} {text : Text} {root : Option (Item D)}
  {names : List CStr} {ops : List Texts.Op}

-- With names that fit no copy is without its NUL.
theorem findSub_eq (h : Fit names) (root : Option (Item D)) :
    Texts.findSub names root = some (root.bind (Item.getSub names)) := by
  induction names generalizing root
  case nil => cases root <;> rfl
  case cons name names hi =>
    cases root
    case none   => rfl
    case some x =>
      rw [Texts.findSub, if_pos (h name List.mem_cons_self),
        hi fun y hy => h y (List.mem_cons_of_mem _ hy)]
      rfl

theorem getSub_eq (h : Fit names) (root : Option (Item D)) : Texts.getSub names root =
    some (if names = [] then none else root.bind (Item.getSub names)) := by
  rw [Texts.getSub, findSub_eq h]
  split <;> rfl

theorem map_bind_getSub (root : Option (Item D)) (names : List CStr) :
    (root.bind (Item.getSub names)).map Item.toCJson =
      getSubFromJson (root.map Item.toCJson) names := by
  cases root
  case none      => rfl
  case some item => exact (Item.getSub_toCJson item).symm

-- What is made of `root` is in it, apart from what is deleted, and needs no more room.
def Within (N : Int → D → Prop) (root : Option (Item D)) (x : Item D) : Prop :=
  Plain N x ∧ ∃ item ∈ root, x.room 0 ≤ item.room 0

theorem within_getSub {x : Item D} (hp : ∀ item ∈ root, Plain N item)
    (hx : root.bind (Item.getSub names) = some x) : Within N root x := by
  obtain ⟨item, hi, hx⟩ := Option.bind_eq_some_iff.mp hx
  exact ⟨(hp item hi).getSub hx, item, hi, (hp item hi).room_getSub hx⟩

variable [Double D]

-- What a step prints is the tree that the step on trees makes.
theorem step_eq_print (h : Texts.parse D buf = some root) (hp : ∀ item ∈ root, Plain N item)
    (op : Texts.Op) (hf : Fit op.names) : ∃ x, Texts.step D buf op = Texts.print x ∧
      (∀ item ∈ x, Within N root item) ∧
      x.map Item.toCJson = specStep (root.map Item.toCJson) op := by
  cases op
  case obj names =>
    have hf : Fit names := hf
    refine ⟨if names = [] then none else root.bind (Item.getSub names), ?_, fun x hx => ?_, ?_⟩
    · rw [Texts.step, Texts.getObjBufFromJson, h]
      simp only [bind, Option.bind_some, getSub_eq hf]
    · split at hx
      case isTrue  => exact absurd hx (by simp)
      case isFalse => exact within_getSub hp hx
    · rw [specStep, getObjBufFromJson, ← map_bind_getSub]
      split <;> rfl
  case item names index =>
    have hf : Fit names := hf
    rw [Texts.step, Texts.getBufFromArray, h, specStep, ← map_bind_getSub]
    simp only [bind, Option.bind_some, findSub_eq hf]
    cases hs : root.bind (Item.getSub names)
    case none   => exact ⟨none, rfl, by simp, rfl⟩
    case some j =>
      by_cases hi : 0 ≤ index
      case neg => exact ⟨none, if_neg fun hc => hi hc.left, by simp, by simp [hi]⟩
      case pos =>
        refine ⟨j.child[index.toNat]?, ?_, fun x hx => ?_, ?_⟩
        · by_cases hl : index < j.child.length
          case pos => exact if_pos ⟨hi, hl⟩
          case neg =>
            have hn : j.child[index.toNat]? = none := List.getElem?_eq_none (by omega)
            rw [hn]
            exact if_neg fun hc => hl hc.right
        · obtain ⟨hj, item, hitem, hle⟩ := within_getSub hp hs
          have hx := List.mem_of_getElem? hx
          exact ⟨hj.child hx, item, hitem, (hj.room_child hx).trans hle⟩
        · simp [hi, Item.child_toCJson]
  case del names =>
    have hf : Fit names := hf
    refine ⟨root.map (Item.deleteSub names), ?_, fun x hx => ?_, ?_⟩
    · rw [Texts.step, Texts.delObjJson, h]
      simp only [bind, Option.bind_some, findSub_eq hf]
    · obtain ⟨item, hi, rfl⟩ := Option.map_eq_some_iff.mp hx
      exact ⟨(hp item hi).deleteSub, item, hi, Item.room_deleteSub item⟩
    · cases root
      case none      => rfl
      case some item => exact congrArg some (Item.deleteSub_toCJson item).symm

-- The tree that is in a text. Its numbers are ints, and there is room for it.
inductive Represents (D : Type) [Double D] : Buf → Text → Prop
  | null : Represents D none none
  | error {value ep : CStr} : (cJSON_Parse value : Parsed (Item D)) = .error ep →
    Represents D (some value) none
  | ok {value rest : CStr} {item : Item D} : cJSON_Parse value = .ok item rest →
    Plain Whole item → item.Roomy → Represents D (some value) (some item.toCJson)

theorem Represents.parse (h : Represents D buf text) : ∃ root, Texts.parse D buf = some root ∧
    text = root.map Item.toCJson ∧ ∀ item ∈ root, Plain Whole item ∧ item.Roomy := by
  cases h
  case null            => exact ⟨none, rfl, rfl, by simp⟩
  case error h         => exact ⟨none, by simp [Texts.parse, h], rfl, by simp⟩
  case ok item h hw hr =>
    exact ⟨some item, by simp [Texts.parse, h], rfl, by simpa using ⟨hw, hr⟩⟩

theorem represents_print [Exact D] (h : ∀ item ∈ root, Plain Whole item ∧ item.Roomy) :
    ∃ buf, Texts.print root = some buf ∧ Represents D buf (root.map Item.toCJson) := by
  cases root
  case none      => exact ⟨none, rfl, .null⟩
  case some item =>
    obtain ⟨hw, hr⟩ := h item rfl
    have hlt : item.room 0 < 2 ^ 31 := Nat.lt_of_le_of_lt (Nat.le_add_right _ _) hr
    obtain ⟨t, ht, -, hread⟩ := printValue_cJSON_Parse hw true hlt
    have hread := hread [] [] blank_nil follows_nil
    rw [List.nil_append, List.append_nil] at hread
    exact ⟨some t, by rw [Texts.print, cJSON_Print, ht]; rfl, .ok hread hw hr⟩

theorem step_refines [Exact D] (h : Represents D buf text) (op : Texts.Op) (hf : Fit op.names) :
    ∃ buf', Texts.step D buf op = some buf' ∧ Represents D buf' (specStep text op) := by
  obtain ⟨root, hroot, rfl, hp⟩ := h.parse
  obtain ⟨x, hx, hxp, he⟩ := step_eq_print hroot (fun item hi => (hp item hi).left) op hf
  have hxr : ∀ item ∈ x, Plain Whole item ∧ item.Roomy := by
    intro item hi
    obtain ⟨hw, r, hr, hle⟩ := hxp item hi
    exact ⟨hw, Nat.lt_of_le_of_lt (Nat.add_le_add_right hle 1024) (hp r hr).right⟩
  obtain ⟨buf', hb, hr⟩ := represents_print hxr
  exact ⟨buf', hx.trans hb, he ▸ hr⟩

theorem run_represents [Exact D] (h : Represents D buf text) (hf : ∀ op ∈ ops, Fit op.names) :
    ∃ buf', ops.foldlM (Texts.step D) buf = some buf' ∧
      Represents D buf' (ops.foldl specStep text) := by
  induction ops generalizing buf text
  case nil => exact ⟨buf, rfl, h⟩
  case cons op ops hi =>
    obtain ⟨buf₁, hb, h₁⟩ := step_refines h op (hf op List.mem_cons_self)
    obtain ⟨buf', hb', h'⟩ := hi h₁ fun op ho => hf op (List.mem_cons_of_mem _ ho)
    refine ⟨buf', ?_, h'⟩
    rw [List.foldlM_cons, hb]
    exact hb'

theorem Represents.getIntVal (h : Represents D buf text) (hn : names ≠ []) (hf : Fit names) :
    Texts.getIntValFromJson D buf names = some (getIntValFromJson text names) := by
  obtain ⟨root, hroot, rfl, -⟩ := h.parse
  rw [Texts.getIntValFromJson, hroot, getIntValFromJson, ← map_bind_getSub]
  simp only [bind, Option.bind_some, getSub_eq hf, if_neg hn]
  cases root.bind (Item.getSub names)
  case none   => rfl
  case some x => exact congrArg some (Item.valueint_toCJson x).symm

theorem getStrVal_eq (h : Texts.parse D buf = some root)
    (hp : ∀ item ∈ root, Plain N item ∧ item.Roomy) (hf : Fit names) :
    Texts.getStrValFromJson D buf names = some
      ((if names = [] then none else root.bind (Item.getSub names)).bind Item.valuestring) := by
  rw [Texts.getStrValFromJson, h]
  simp only [bind, Option.bind_some, getSub_eq hf]
  cases hs : (if names = [] then none else root.bind (Item.getSub names)).bind Item.valuestring
  case none       => rfl
  case some value =>
    obtain ⟨x, hx, hv⟩ := Option.bind_eq_some_iff.mp hs
    split at hx
    case isTrue  => exact absurd hx (by simp)
    case isFalse =>
      obtain ⟨-, item, hi, hle⟩ := within_getSub (fun item hi => (hp item hi).left) hx
      have hr : item.room 0 + 1024 < 2 ^ 31 := (hp item hi).right
      have hl := Item.length_valuestring hv
      have hb : lenBlock ((value.length + 1) / 1024 * 1024 + 1024) value = some value :=
        lenBlock_some (by omega) (by omega)
      simp only [hb, Option.bind_some]
      rfl

theorem Represents.getStrVal (h : Represents D buf text) (hn : names ≠ []) (hf : Fit names) :
    Texts.getStrValFromJson D buf names = some (getStrValFromJson text names) := by
  obtain ⟨root, hroot, rfl, hp⟩ := h.parse
  rw [getStrVal_eq hroot hp hf, if_neg hn, getStrValFromJson, ← map_bind_getSub]
  cases root.bind (Item.getSub names)
  case none   => rfl
  case some x => exact congrArg some (Item.valuestring_toCJson x).symm

-- Whatever is taken out of texts and deleted in them, what is read from them is what is read from
-- the trees.
theorem run_refines [Exact D] (h : Represents D buf text) (hf : ∀ op ∈ ops, Fit op.names) :
    ∃ buf', ops.foldlM (Texts.step D) buf = some buf' ∧
      Represents D buf' (ops.foldl specStep text) ∧ ∀ names, names ≠ [] → Fit names →
        Texts.getIntValFromJson D buf' names =
          some (getIntValFromJson (ops.foldl specStep text) names) ∧
        Texts.getStrValFromJson D buf' names =
          some (getStrValFromJson (ops.foldl specStep text) names) := by
  obtain ⟨buf', hb, h'⟩ := run_represents h hf
  exact ⟨buf', hb, h', fun names hn hf => ⟨h'.getIntVal hn hf, h'.getStrVal hn hf⟩⟩

theorem roomy_answer : ∀ item ∈ some answer, Plain Whole item ∧ item.Roomy := by
  have hr : answer.Roomy := by decide
  simpa using ⟨whole_answer, hr⟩

theorem run_refines_answer : ∃ buf buf',
    [Texts.Op.del ["name"]].foldlM (Texts.step ℚ) buf = some buf' ∧
    Texts.getStrValFromJson ℚ buf ["name"] = some (some (CStr.ofString "a\n")) ∧
    Texts.getStrValFromJson ℚ buf' ["name"] = some none ∧
    Texts.getIntValFromJson ℚ buf' ["id"] = some (-7) := by
  obtain ⟨buf, -, h⟩ := represents_print roomy_answer
  have hf : ∀ op ∈ [Texts.Op.del ["name"]], Fit op.names := by
    decide
  obtain ⟨buf', hb, -, hg⟩ := run_refines h hf
  exact ⟨buf, buf', hb, h.getStrVal (by decide) (by decide),
    (hg ["name"] (by decide) (by decide)).right, (hg ["id"] (by decide) (by decide)).left⟩

-- What can be looked up in a text
structure Readable (D : Type) [Double D] (buf : Buf) : Prop where
  int   : ∀ names, Fit names → ∃ val, Texts.getIntValFromJson D buf names = some val ∧
    INT_MIN ≤ val ∧ val ≤ INT_MAX
  str   : ∀ names, Fit names → ∃ val, Texts.getStrValFromJson D buf names = some val ∧
    ∀ s ∈ val, '\x00' ∉ s
  array : ∀ names max, Fit names → ∃ pInt, Texts.getIntValFromArray D buf names max = some pInt ∧
    pInt.length ≤ max.toNat

-- The tree of a text, if there is one, has room.
def Ample (D : Type) [Double D] (buf : Buf) : Prop :=
  ∀ root, Texts.parse D buf = some root → ∀ item ∈ root, item.Roomy

theorem Represents.ample (h : Represents D buf text) : Ample D buf := by
  intro root hroot item hi
  obtain ⟨root', hroot', -, hp⟩ := h.parse
  cases hroot.symm.trans hroot'
  exact (hp item hi).right

theorem parse_legible [Printed D] (h : ∀ value ∈ buf, Legible value) :
    ∃ root, Texts.parse D buf = some root ∧ ∀ item ∈ root, Plain Bounded item := by
  cases buf
  case none       => exact ⟨none, rfl, by simp⟩
  case some value =>
    have hs := parse_sound (D := D) (h value rfl)
    rw [Texts.parse]
    cases hp : (cJSON_Parse value : Parsed (Item D))
    case ok item rest =>
      rw [hp] at hs
      exact ⟨some item, rfl, by simpa using hs.left⟩
    case error ep => exact ⟨none, rfl, by simp⟩
    case fault    => exact absurd (hp ▸ hs) Result.not_sound_fault

theorem print_legible [Printed D] (h : ∀ item ∈ root, Plain Bounded item ∧ item.Roomy) :
    ∃ buf, Texts.print root = some buf ∧ ∀ value ∈ buf, Legible value := by
  cases root
  case none      => exact ⟨none, rfl, by simp⟩
  case some item =>
    obtain ⟨hp, hr⟩ := h item rfl
    have hlt : item.room 0 < 2 ^ 31 := Nat.lt_of_le_of_lt (Nat.le_add_right _ _) hr
    obtain ⟨t, ht, hl, hc⟩ := printValue_some hp
      (fun i d hb => printNumber_some hb.left hb.right d) true 0 hlt
    refine ⟨some t, ?_, by simpa using hc.legible (hl.trans hlt)⟩
    rw [Texts.print, cJSON_Print, ht]
    rfl

theorem step_legible [Printed D] (h : ∀ value ∈ buf, Legible value) (ha : Ample D buf)
    (op : Texts.Op) (hf : Fit op.names) :
    ∃ buf', Texts.step D buf op = some buf' ∧ ∀ value ∈ buf', Legible value := by
  obtain ⟨root, hroot, hp⟩ := parse_legible (D := D) h
  obtain ⟨x, hx, hxp, -⟩ := step_eq_print hroot hp op hf
  have hxr : ∀ item ∈ x, Plain Bounded item ∧ item.Roomy := by
    intro item hi
    obtain ⟨hw, r, hr, hle⟩ := hxp item hi
    exact ⟨hw, Nat.lt_of_le_of_lt (Nat.add_le_add_right hle 1024) (ha root hroot r hr)⟩
  obtain ⟨buf', hb, hl⟩ := print_legible hxr
  exact ⟨buf', hx.trans hb, hl⟩

theorem readable_of_legible [Printed D] (h : ∀ value ∈ buf, Legible value) (ha : Ample D buf) :
    Readable D buf := by
  obtain ⟨root, hroot, hp⟩ := parse_legible (D := D) h
  have hsub {names : List CStr} {x : Item D}
      (hx : (if names = [] then none else root.bind (Item.getSub names)) = some x) :
      Plain Bounded x := by
    split at hx
    case isTrue  => exact absurd hx (by simp)
    case isFalse => exact (within_getSub hp hx).left
  constructor
  · intro names hf
    rw [Texts.getIntValFromJson, hroot]
    simp only [bind, Option.bind_some, getSub_eq hf]
    refine ⟨_, rfl, ?_⟩
    cases hx : if names = [] then none else root.bind (Item.getSub names)
    case none   => simp [INT_MIN, INT_MAX]
    case some x => exact (hsub hx).valueint
  · intro names hf
    refine ⟨_, getStrVal_eq hroot (fun item hi => ⟨hp item hi, ha root hroot item hi⟩) hf,
      fun s hs => ?_⟩
    obtain ⟨x, hx, hs⟩ := Option.bind_eq_some_iff.mp hs
    cases hsub hx
    case string h₀ =>
      rw [← Option.some.inj hs]
      exact h₀
    all_goals exact absurd hs (by simp [Item.valuestring])
  · intro names max hf
    rw [Texts.getIntValFromArray, hroot]
    simp only [bind, Option.bind_some, getSub_eq hf]
    cases hx : if names = [] then none else root.bind (Item.getSub names)
    case none   => exact ⟨[], rfl, Nat.zero_le _⟩
    case some x => exact ⟨(x.child.take max.toNat).map Item.valueint, rfl, by simp⟩

-- Whatever is taken out of texts and deleted in them, no text is read behind its end, no string and
-- no text is written behind its block, and what is taken out can be read. There has to be room for
-- the texts on the way.
theorem run_legible [Printed D] (h : ∀ value ∈ buf, Legible value)
    (hf : ∀ op ∈ ops, Fit op.names)
    (ha : ∀ n buf', (ops.take n).foldlM (Texts.step D) buf = some buf' → Ample D buf') :
    ∃ buf', ops.foldlM (Texts.step D) buf = some buf' ∧ (∀ value ∈ buf', Legible value) ∧
      Readable D buf' := by
  induction ops generalizing buf
  case nil => exact ⟨buf, rfl, h, readable_of_legible h (ha 0 buf rfl)⟩
  case cons op ops hi =>
    obtain ⟨buf₁, hb, h₁⟩ := step_legible (D := D) h (ha 0 buf rfl) op (hf op List.mem_cons_self)
    have hrun (l : List Texts.Op) : (op :: l).foldlM (Texts.step D) buf =
        l.foldlM (Texts.step D) buf₁ := by
      rw [List.foldlM_cons, hb]
      rfl
    obtain ⟨buf', hb', h'⟩ := hi h₁ (fun op ho => hf op (List.mem_cons_of_mem _ ho))
      fun n buf' hn => ha (n + 1) buf' ((hrun _).trans hn)
    exact ⟨buf', (hrun ops).trans hb', h'⟩

-- The same text is asked for its names, before and after one of them is deleted.
theorem run_legible_answer : ∃ buf buf', Texts.print (some answer) = some buf ∧
    [Texts.Op.del ["name"], .obj ["id"]].foldlM (Texts.step ℚ) buf = some buf' ∧
      (∀ value ∈ buf', Legible value) ∧ Readable ℚ buf' := by
  obtain ⟨buf, hb, h⟩ := represents_print roomy_answer
  obtain ⟨_, hb', hl⟩ := print_legible fun item hi =>
    (roomy_answer item hi).imp (·.imp fun _ _ hw => ⟨hw.left, hw.right.left⟩) id
  cases hb.symm.trans hb'
  have hf : ∀ op ∈ [Texts.Op.del ["name"], .obj ["id"]], Fit op.names := by
    decide
  obtain ⟨buf', hrun⟩ := run_legible hl hf fun n buf' hn => by
    obtain ⟨buf₂, hb₂, h₂⟩ := run_represents h fun op ho => hf op (List.mem_of_mem_take ho)
    cases hn.symm.trans hb₂
    exact h₂.ample
  exact ⟨buf, buf', hb, hrun⟩

end

end JsonText
