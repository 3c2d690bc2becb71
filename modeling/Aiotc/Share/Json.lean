import Mathlib.Data.List.Basic

-- The JSON trees of cJSON.c and the functions of share.cpp that read them.

-- A string, as the bytes in front of its NUL.
abbrev CStr := List Char

def CStr.ofString (s : String) : CStr :=
  s.toList

instance : Coe String CStr := ⟨CStr.ofString⟩

-- As `%d` prints it.
def CStr.decimal (x : Int) : CStr :=
  (if x < 0 then ['-'] else []) ++ Nat.toDigits 10 x.natAbs

theorem CStr.decimal_natCast (n : Nat) : CStr.decimal n = Nat.toDigits 10 n := by
  simp [CStr.decimal, Int.natAbs_natCast]

-- `strncpy` into an array of `n` bytes. A string of `n` bytes or more is cut off (and left
-- without a NUL by the program).
def strncpy (n : Nat) (s : CStr) : CStr :=
  s.take n

-- Numbers are the integers they are read as.
inductive CJson
  | null
  | false
  | true
  | number (valueint : Int)
  | string (valuestring : CStr)
  | array (child : List CJson)
  | object (child : List (CStr × CJson))

-- What is read out of a text. `none` is a text that is not JSON.
abbrev Text := Option CJson

namespace CJson

def strcasecmp (s₁ s₂ : CStr) : Bool :=
  s₁.map Char.toLower = s₂.map Char.toLower

-- The items of an array have no names.
def getObjectItem (string : CStr) : CJson → Option CJson
  | object child => (child.find? (strcasecmp ·.1 string)).map Prod.snd
  | _            => none

def deleteItemFromObject (string : CStr) : CJson → CJson
  | object child => object (child.eraseP (strcasecmp ·.1 string))
  | j            => j

-- The members `valueint` and `valuestring` of an item are zeroed where its type has none.
def valueint : CJson → Int
  | number n => n
  | true     => 1
  | _        => 0

def valuestring : CJson → Option CStr
  | string s => some s
  | _        => none

end CJson

-- `names` are those of `nameSub1`, `nameSub2` and `nameSub3` that are not NULL.
def getSubFromJson (buf : Text) (names : List CStr) : Option CJson := do
  names.foldlM (fun j name => j.getObjectItem name) (← buf)

def getIntValFromJson (buf : Text) (names : List CStr) : Int :=
  ((getSubFromJson buf names).map CJson.valueint).getD (-1)

def getStrValFromJson (buf : Text) (names : List CStr) : Option CStr := do
  (← getSubFromJson buf names).valuestring

def getObjBufFromJson (buf : Text) (names : List CStr) : Text :=
  getSubFromJson buf names

-- As called, with `nameSub2` and `nameSub3` NULL. Its result is NULL for a text that is not JSON.
def delObjJson (buf : Text) (nameSub1 : CStr) : Text :=
  buf.map (CJson.deleteItemFromObject nameSub1)

section

variable {buf : Text} {name nameSub1 : CStr} {names : List CStr}

theorem find?_eraseP {α : Type*} {p q : α → Bool} {l : List α} (h : ∀ x, q x → p x = false) :
    (l.eraseP q).find? p = l.find? p := by
  induction l
  case nil => rfl
  case cons x l hi =>
    by_cases hx : q x
    case pos => simp [hx, h x hx]
    case neg => simp [hx, List.find?_cons, hi]

theorem CJson.getObjectItem_deleteItemFromObject (j : CJson)
    (h : name.map Char.toLower ≠ nameSub1.map Char.toLower) :
    (j.deleteItemFromObject nameSub1).getObjectItem name = j.getObjectItem name := by
  cases j <;> try rfl
  case object child =>
    refine congrArg (Option.map Prod.snd) <| find?_eraseP fun x hx => ?_
    simp only [strcasecmp, decide_eq_true_eq] at hx
    simpa [strcasecmp, hx] using h.symm

-- Deleting a member leaves what is under the other names alone.
theorem getSubFromJson_delObjJson (h : name.map Char.toLower ≠ nameSub1.map Char.toLower) :
    getSubFromJson (delObjJson buf nameSub1) (name :: names) =
      getSubFromJson buf (name :: names) := by
  cases buf
  case none => rfl
  case some j =>
    simp [getSubFromJson, delObjJson, CJson.getObjectItem_deleteItemFromObject j h]

theorem getIntValFromJson_delObjJson (h : name.map Char.toLower ≠ nameSub1.map Char.toLower) :
    getIntValFromJson (delObjJson buf nameSub1) (name :: names) =
      getIntValFromJson buf (name :: names) := by
  simp only [getIntValFromJson, getSubFromJson_delObjJson h]

theorem getStrValFromJson_delObjJson (h : name.map Char.toLower ≠ nameSub1.map Char.toLower) :
    getStrValFromJson (delObjJson buf nameSub1) (name :: names) =
      getStrValFromJson buf (name :: names) := by
  simp only [getStrValFromJson, getSubFromJson_delObjJson h]

end
