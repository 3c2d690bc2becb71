import Aiotc.Share.Json
import Mathlib.Algebra.Group.Int.Defs
import Mathlib.Algebra.Group.Nat.Defs

-- db.cpp: how `dbInit` puts the URI of the database together.

namespace DbUri

-- Of `configParams` what describes the database. The strings are in arrays of 64 bytes.
structure DbConfig where
  dbHost : CStr
  dbPort : Int
  dbUser : CStr
  dbPassword : CStr
  dbName : CStr
  host_le : dbHost.length ≤ 63
  port_lt : -2 ^ 31 ≤ dbPort ∧ dbPort < 2 ^ 31
  user_le : dbUser.length ≤ 63
  password_le : dbPassword.length ≤ 63
  name_le : dbName.length ≤ 63

-- `uri_string`, of which all cells up to `written` have been written to.
structure UriString where
  text : CStr := []
  written : ℕ := 0

def sizeofUriString : ℕ :=
  256

namespace UriString

-- `sizeof(uri_string) - strlen(uri_string)`, as a `size_t`.
def room (u : UriString) : ℕ :=
  (2 ^ 64 + sizeofUriString - u.text.length) % 2 ^ 64

-- The characters that are copied are followed by a NUL.
def put (src : CStr) (u : UriString) : UriString where
  text := u.text ++ src
  written := max u.written (u.text.length + src.length + 1)

-- At most `n` characters and the NUL.
def strncat (src : CStr) (n : ℕ) (u : UriString) : UriString :=
  u.put (src.take n)

-- At most `n` characters, the NUL being one of them. They go behind the text that is there.
def snprintf (n : ℕ) (src : CStr) (u : UriString) : UriString :=
  if n = 0 then u else u.put (src.take (n - 1))

def append (src : CStr) (u : UriString) : UriString :=
  u.strncat src u.room

end UriString

namespace DbConfig

def hasUser (c : DbConfig) : Bool :=
  c.dbUser.length > 0 ∧ c.dbPassword.length > 0 ∧ c.dbUser ≠ "null" ∧ c.dbPassword ≠ "null"

def hasName (c : DbConfig) : Bool :=
  c.dbName.length > 0 ∧ c.dbName ≠ "null"

end DbConfig

def dbInit (c : DbConfig) : UriString :=
  let u : UriString := {}
  let u := u.append "mongodb://"
  let u :=
    if c.hasUser then
      (((u.append c.dbUser).append ":").append c.dbPassword).append "@"
    else
      u
  let u := u.append c.dbHost
  let u := u.append ":"
  let u := u.snprintf u.room (CStr.decimal c.dbPort)
  if c.hasName then (u.append "/").append c.dbName else u

namespace DbConfig

def userPart (c : DbConfig) : CStr :=
  if c.hasUser then c.dbUser ++ (":" : CStr) ++ c.dbPassword ++ ("@" : CStr) else []

def namePart (c : DbConfig) : CStr :=
  if c.hasName then ("/" : CStr) ++ c.dbName else []

def server (c : DbConfig) : CStr :=
  ("mongodb://" : CStr) ++ c.userPart ++ c.dbHost ++ (":" : CStr) ++ CStr.decimal c.dbPort

-- mongodb://[user:password@]host:port[/name]
def uri (c : DbConfig) : CStr :=
  c.server ++ c.namePart

end DbConfig

structure Lawful (c : DbConfig) : Prop where
  inside : (dbInit c).written ≤ sizeofUriString
  same   : c.uri.length < sizeofUriString → (dbInit c).text = c.uri

-- The text is complete, and nothing was written behind its NUL.
structure UriString.Holds (u : UriString) (s : CStr) : Prop where
  text    : u.text = s
  written : u.written ≤ s.length + 1

variable {u : UriString} {s src : CStr} {c : DbConfig}

namespace UriString.Holds

theorem room (h : u.Holds s) (hs : s.length ≤ sizeofUriString) :
    u.room = sizeofUriString - s.length := by
  simp only [UriString.room, h.text, sizeofUriString] at *
  omega

theorem put (h : u.Holds s) : (u.put src).Holds (s ++ src) := by
  have hw := h.written
  constructor
  case text    => rw [UriString.put, h.text]
  case written =>
    simp only [UriString.put, h.text, List.length_append]
    omega

theorem append (h : u.Holds s) (src : CStr) (hs : s.length + src.length ≤ sizeofUriString) :
    (u.append src).Holds (s ++ src) := by
  rw [UriString.append, strncat, h.room (by omega), List.take_of_length_le (by omega)]
  exact h.put

theorem snprintf (h : u.Holds s) (hs : s.length + src.length < sizeofUriString) :
    (u.snprintf u.room src).Holds (s ++ src) := by
  have hn : u.room = sizeofUriString - s.length := h.room (by omega)
  rw [UriString.snprintf, if_neg (by omega), List.take_of_length_le (by omega)]
  exact h.put

-- A text that does not fit is cut off where the array ends, and its NUL goes behind it.
theorem append_of_le (h : u.Holds s) (src : CStr) (hl : s.length ≤ sizeofUriString)
    (hs : sizeofUriString ≤ s.length + src.length) :
    sizeofUriString < (u.append src).written := by
  rw [UriString.append, strncat, h.room hl]
  simp only [UriString.put, h.text, List.length_take]
  omega

end UriString.Holds

theorem length_decimal (c : DbConfig) : (CStr.decimal c.dbPort).length ≤ 11 := by
  have hp := c.port_lt
  have hd : (Nat.toDigits 10 c.dbPort.natAbs).length ≤ 10 :=
    (Nat.length_toDigits_le_iff (by decide) (by decide)).mpr (by omega)
  simp only [CStr.decimal, List.length_append]
  split <;> simp <;> omega

theorem length_userPart (c : DbConfig) : c.userPart.length ≤ 128 := by
  have hu := c.user_le
  have hp := c.password_le
  simp only [DbConfig.userPart]
  split <;> simp [CStr.ofString]
  omega

theorem length_server (c : DbConfig) : c.server.length ≤ 213 := by
  have hu := length_userPart c
  have hh := c.host_le
  have hp := length_decimal c
  have hs : ("mongodb://" : CStr).length = 10 := rfl
  have hc : (":" : CStr).length = 1 := rfl
  simp only [DbConfig.server, List.length_append, hs, hc]
  omega

-- With a user the text in front of the host is put together in four steps.
theorem holds_userPart (c : DbConfig) (h : u.Holds s) (hs : s.length ≤ 10) :
    (if c.hasUser then (((u.append c.dbUser).append ":").append c.dbPassword).append "@"
      else u).Holds (s ++ c.userPart) := by
  have hu := c.user_le
  have hp := c.password_le
  have hc : (":" : CStr).length = 1 := rfl
  have ha : ("@" : CStr).length = 1 := rfl
  simp only [DbConfig.userPart]
  split
  case isFalse => rwa [List.append_nil]
  case isTrue =>
    simp only [← List.append_assoc]
    refine (((h.append _ ?_).append _ ?_).append _ ?_).append _ ?_ <;>
      simp only [List.length_append, hc, ha, sizeofUriString] <;> omega

-- What is written in front of the name always fits.
theorem dbInit_eq (c : DbConfig) :
    ∃ u : UriString, u.Holds c.server ∧
      dbInit c = if c.hasName then (u.append "/").append c.dbName else u := by
  have hs := length_server c
  simp only [DbConfig.server, List.length_append] at hs
  refine ⟨_, ?_, rfl⟩
  have h₀ : ({} : UriString).Holds [] := ⟨rfl, Nat.zero_le _⟩
  have h₁ := holds_userPart c (h₀.append "mongodb://" (by decide)) (by decide)
  refine (((h₁.append _ ?_).append _ ?_).snprintf ?_) <;>
    simp only [List.length_append, List.nil_append, sizeofUriString] <;> omega

-- Without a name all of it fits. With one there is room for the slash.
theorem dbInit_cases (c : DbConfig) :
    ((dbInit c).Holds c.uri ∧ c.uri.length < sizeofUriString) ∨
      ∃ u s, UriString.Holds u s ∧ s.length < sizeofUriString ∧ dbInit c = u.append c.dbName ∧
        c.uri = s ++ c.dbName := by
  have ⟨u, hu, he⟩ := dbInit_eq c
  have hs := length_server c
  have hc : ("/" : CStr).length = 1 := rfl
  cases hn : c.hasName
  case false =>
    have hd : dbInit c = u := by simp [he, hn]
    have huri : c.uri = c.server := by simp [DbConfig.uri, DbConfig.namePart, hn]
    rw [hd, huri, sizeofUriString]
    exact .inl ⟨hu, by omega⟩
  case true =>
    have hd : dbInit c = (u.append "/").append c.dbName := by simp [he, hn]
    have huri : c.uri = c.server ++ ("/" : CStr) ++ c.dbName := by
      simp [DbConfig.uri, DbConfig.namePart, hn]
    refine .inr ⟨_, _, hu.append "/" ?_, ?_, hd, huri⟩ <;>
      simp only [List.length_append, hc, sizeofUriString] <;> omega

theorem UriString.Holds.lawful (h : (dbInit c).Holds c.uri) (hl : c.uri.length < sizeofUriString) :
    Lawful c where
  inside := Nat.le_trans h.written hl
  same   := fun _ => h.text

theorem dbInit_lawful_iff (c : DbConfig) : Lawful c ↔ c.uri.length < sizeofUriString := by
  rcases dbInit_cases c with ⟨h, hl⟩ | ⟨u, s, hu, hs, hd, he⟩
  case inl => exact iff_of_true (h.lawful hl) hl
  case inr =>
    have hn : c.uri.length = s.length + c.dbName.length := by rw [he, List.length_append]
    constructor
    case mp =>
      intro h
      by_contra hge
      have hw := hu.append_of_le c.dbName (Nat.le_of_lt hs) (by omega)
      exact Nat.not_le_of_lt hw (hd ▸ h.inside)
    case mpr =>
      intro hlt
      have hu := hu.append c.dbName (by omega)
      rw [← hd, ← he] at hu
      exact hu.lawful hlt

section

def longest : DbConfig where
  dbHost := List.replicate 63 'h'
  dbPort := 27017
  dbUser := List.replicate 63 'u'
  dbPassword := List.replicate 63 'p'
  dbName := List.replicate 63 'n'
  host_le := by simp
  port_lt := by decide
  user_le := by simp
  password_le := by simp
  name_le := by simp

-- The NUL behind the name is written to the byte that follows the array.
theorem dbInit_not_lawful : ¬∀ c, Lawful c := by
  intro h
  have hw : (dbInit longest).written = 257 := by decide +kernel
  exact absurd (h longest).inside (by rw [hw]; decide)

end

end DbUri
