import Mathlib.Data.List.Range
import Aiotc.Library.Pool
import Aiotc.Library.Run
import Aiotc.Pids.Basic

-- pids.cpp: `keyCache`, the array of the message keys that are in use. A 0 ends what is used of it,
-- a -1 is a key that was deleted.

namespace Pids

-- The keys that `getMsgKey` can return. As they end below 2^31 no `int` overflows.
def msgKeys (cfg : ConfigParams) : List Int :=
  keysFrom (cfg.msgKeyMax - 1).toNat (cfg.msgKeyStart + 1)
where
  keysFrom : ℕ → Int → List Int
  | 0, _     => []
  | n + 1, i => i :: keysFrom n (i + 1)

-- The loops by their index. `none` is an access outside of `keyCache`.

def scanKeysAt (i : Int) (keyCache : List Int) : (fuel j : ℕ) → (empty : Option ℕ) →
    Option (Bool × ℕ × Option ℕ)
  | 0, j, empty        => some (true, j, empty)
  | fuel + 1, j, empty => do
    let k ← keyCache[j]?
    if k = i ∨ k = 0 then
      return (k ≠ 0, j, empty)
    else
      scanKeysAt i keyCache fuel (j + 1) (if k = -1 ∧ empty = none then some j else empty)

def setKeyAt (j : ℕ) (key : Int) (keyCache : List Int) : Option (List Int) :=
  if j < keyCache.length then some (keyCache.set j key) else none

def getMsgKeyAt (cfg : ConfigParams) (keyCache : List Int) : Option (Int × List Int) :=
  go (cfg.msgKeyMax - 1).toNat (cfg.msgKeyStart + 1) none
where
  go : (fuel : ℕ) → (i : Int) → (empty : Option ℕ) → Option (Int × List Int)
  | 0, _, _            => some (-1, keyCache)
  | fuel + 1, i, empty => do
    let (used, j, empty) ← scanKeysAt i keyCache cfg.msgKeyMax.toNat 0 empty
    if used then go fuel (i + 1) empty else return (i, ← setKeyAt (empty.getD j) i keyCache)

def delMsgKeyAt (cfg : ConfigParams) (key : Int) (keyCache : List Int) : Option (List Int) :=
  go cfg.msgKeyMax.toNat 0
where
  go : (fuel j : ℕ) → Option (List Int)
  | 0, _        => some keyCache
  | fuel + 1, j => do
    let k ← keyCache[j]?
    if k = key ∨ k = 0 then
      if k = key then setKeyAt j (-1) keyCache else return keyCache
    else
      go fuel (j + 1)

section

variable {cfg : ConfigParams} {keyCache used zs held : List Int} {i key : Int} {fuel j n : ℕ}
  {empty : Option ℕ}

theorem mem_keysFrom : key ∈ msgKeys.keysFrom n i ↔ i ≤ key ∧ key < i + n := by
  induction n generalizing i
  case zero      => simp [msgKeys.keysFrom]
  case succ n hi =>
    simp only [msgKeys.keysFrom, List.mem_cons, hi]
    omega

theorem nodup_keysFrom : (msgKeys.keysFrom n i).Nodup := by
  induction n generalizing i
  case zero      => exact .nil
  case succ n hi =>
    refine List.nodup_cons.mpr ⟨?_, hi⟩
    rw [mem_keysFrom]
    omega

theorem length_keysFrom : (msgKeys.keysFrom n i).length = n := by
  induction n generalizing i
  case zero      => rfl
  case succ n hi => simp [msgKeys.keysFrom, hi]

theorem mem_msgKeys :
    key ∈ msgKeys cfg ↔ cfg.msgKeyStart < key ∧ key < cfg.msgKeyStart + cfg.msgKeyMax := by
  rw [msgKeys, mem_keysFrom]
  omega

theorem nodup_msgKeys (cfg : ConfigParams) : (msgKeys cfg).Nodup :=
  nodup_keysFrom

theorem length_msgKeys (h : 1 ≤ cfg.msgKeyMax) :
    ((msgKeys cfg).length : Int) = cfg.msgKeyMax - 1 := by
  rw [msgKeys, length_keysFrom]
  omega

-- The loop by its index is the one over the list, and it ends at a place of the cache.

theorem scanKeysAt_eq (ks : List Int) (h : keyCache.drop j = ks) (hj : j ≤ keyCache.length) :
    scanKeysAt i keyCache ks.length j empty = some (scanKeys i ks j empty) := by
  induction ks generalizing j empty
  case nil => rfl
  case cons k ks hi =>
    have hk : keyCache[j]? = some k := by
      rw [← Nat.add_zero j, ← List.getElem?_drop, h]
      rfl
    have hl := (List.getElem?_eq_some_iff.mp hk).choose
    have hd : keyCache.drop (j + 1) = ks := by
      rw [← List.drop_drop, h]
      rfl
    simp only [List.length_cons, scanKeysAt, hk, scanKeys, Option.bind_eq_bind, Option.bind_some]
    split
    · rfl
    · exact hi hd hl

theorem scanKeys_lt (he : ∀ e ∈ empty, e < j + keyCache.length) {j' : ℕ} {empty' : Option ℕ}
    {b : Bool} (h : scanKeys i keyCache j empty = (b, j', empty')) :
    (b = false → j' < j + keyCache.length) ∧ ∀ e ∈ empty', e < j + keyCache.length := by
  induction keyCache generalizing j empty
  case nil =>
    cases h
    exact ⟨nofun, he⟩
  case cons k ks hi =>
    simp only [scanKeys] at h
    rw [List.length_cons] at he ⊢
    split at h
    case isTrue =>
      cases h
      exact ⟨fun _ => by omega, he⟩
    case isFalse =>
      have hi := hi (j := j + 1) (fun e hm => ?_) h
      · rwa [Nat.add_right_comm, Nat.add_assoc] at hi
      · split at hm
        · cases hm
          omega
        · have := he e hm
          omega

theorem getMsgKeyAt_eq (h : (keyCache.length : Int) = cfg.msgKeyMax) :
    getMsgKeyAt cfg keyCache = some (getMsgKey cfg keyCache) := by
  have hl : cfg.msgKeyMax.toNat = keyCache.length := by omega
  have hgo : ∀ (fuel : ℕ) (i : Int) (empty : Option ℕ), (∀ e ∈ empty, e < keyCache.length) →
      getMsgKeyAt.go cfg keyCache fuel i empty = some (getMsgKey.go keyCache fuel i empty) := by
    intro fuel
    induction fuel
    case zero => exact fun _ _ _ => rfl
    case succ fuel hi =>
      intro i empty he
      have hs : scanKeysAt i keyCache keyCache.length 0 empty =
          some (scanKeys i keyCache 0 empty) :=
        scanKeysAt_eq keyCache List.drop_zero (Nat.zero_le _)
      simp only [getMsgKeyAt.go, getMsgKey.go, hl, hs, Option.bind_eq_bind, Option.bind_some]
      obtain ⟨b, j', empty', hr⟩ : ∃ b j' empty', scanKeys i keyCache 0 empty = (b, j', empty') :=
        ⟨_, _, _, rfl⟩
      have ⟨hj, he'⟩ := scanKeys_lt (by simpa using he) hr
      rw [Nat.zero_add] at hj he'
      rw [hr]
      cases b
      case true  => exact hi (i + 1) empty' he'
      case false =>
        have hlt : empty'.getD j' < keyCache.length := by
          cases empty'
          case none   => exact hj rfl
          case some e => exact he' e rfl
        simp [setKeyAt, hlt]
  exact hgo _ _ none nofun

theorem delMsgKeyAt_eq (h : (keyCache.length : Int) = cfg.msgKeyMax) :
    delMsgKeyAt cfg key keyCache = some (delMsgKey key keyCache) := by
  have hl : cfg.msgKeyMax.toNat = keyCache.length := by omega
  have hgo : ∀ ks pre : List Int, keyCache = pre ++ ks →
      delMsgKeyAt.go key keyCache ks.length pre.length = some (pre ++ delMsgKey key ks) := by
    intro ks
    induction ks
    case nil =>
      intro pre hp
      simp [delMsgKeyAt.go, delMsgKey, hp]
    case cons k ks hi =>
      intro pre hp
      have hk : keyCache[pre.length]? = some k := by simp [hp]
      have hi := hi (pre ++ [k]) (by simp [hp])
      simp only [List.length_append, List.length_singleton, List.append_assoc,
        List.singleton_append] at hi
      simp only [List.length_cons, delMsgKeyAt.go, hk, delMsgKey, Option.bind_eq_bind,
        Option.bind_some]
      split
      case isFalse => exact hi
      case isTrue =>
        split
        · simp [setKeyAt, hp]
        · simp [hp]
  simpa [delMsgKeyAt, hl] using hgo keyCache [] rfl

end

-- What `keyCache` holds when `held` are the keys in use: entries that are in use or deleted, and
-- then at least one 0.
structure Caching (cfg : ConfigParams) (keyCache held : List Int) : Prop where
  length  : (keyCache.length : Int) = cfg.msgKeyMax
  start   : 0 ≤ cfg.msgKeyStart
  valid   : Pool.Valid (msgKeys cfg) held
  entries : ∃ used n, keyCache = used ++ List.replicate (n + 1) 0 ∧
    (used.filter (· ≠ -1)).Perm held

section

variable {cfg : ConfigParams} {keyCache used zs held : List Int} {i key : Int} {j : ℕ}
  {empty : Option ℕ}

-- The first place of a deleted key.
def hole (used : List Int) : Option ℕ :=
  used.findIdx? (· = -1)

-- Where the key is found, `empty` stays what it was or becomes the first hole.
theorem scanKeys_mem (hu : ∀ k ∈ used, k ≠ 0) (hm : i ∈ used) :
    ∃ j' empty', scanKeys i (used ++ zs) j empty = (true, j', empty') ∧
      (empty' = empty ∨ empty = none ∧ empty' = (hole used).map (· + j)) := by
  induction used generalizing j empty
  case nil => simp at hm
  case cons k used h =>
    have hk : k ≠ 0 := hu k List.mem_cons_self
    simp only [List.cons_append, scanKeys, hk, or_false]
    split
    case isTrue => exact ⟨j, empty, by simp [hk], .inl rfl⟩
    case isFalse hne =>
      have hm := (List.mem_cons.mp hm).resolve_left (Ne.symm hne)
      have ⟨j', empty', he, h⟩ := @h (j + 1) (if k = -1 ∧ empty = none then some j else empty)
        (fun k hk => hu k (List.mem_cons_of_mem _ hk)) hm
      refine ⟨j', empty', he, ?_⟩
      simp only [hole, List.findIdx?_cons] at h ⊢
      split at h
      case isTrue hd =>
        rcases h with rfl | ⟨h, -⟩
        · exact .inr ⟨hd.right, by simp [hd.left]⟩
        · cases h
      case isFalse hd =>
        refine h.imp_right fun ⟨hn, h⟩ => ⟨hn, ?_⟩
        have hk : k ≠ -1 := fun hk => hd ⟨hk, hn⟩
        simp [h, hk, Function.comp_def, Nat.add_assoc, Nat.add_comm 1]

theorem scanKeys_not_mem (hu : ∀ k ∈ used, k ≠ 0) (hm : i ∉ used) :
    scanKeys i (used ++ 0 :: zs) j empty =
      (false, used.length + j, empty.or ((hole used).map (· + j))) := by
  induction used generalizing j empty
  case nil => simp [scanKeys, hole]
  case cons k used h =>
    have hk : k ≠ 0 := hu k List.mem_cons_self
    have hne : k ≠ i := fun he => hm (he ▸ List.mem_cons_self)
    have h := @h (j + 1) (if k = -1 ∧ empty = none then some j else empty)
      (fun k hk => hu k (List.mem_cons_of_mem _ hk)) (fun h => hm (List.mem_cons_of_mem _ h))
    simp only [List.cons_append, scanKeys, hk, hne, or_false, if_false, h, hole,
      List.findIdx?_cons, List.length_cons]
    by_cases hd : k = -1 <;> cases empty <;>
      simp [hd, Function.comp_def, Nat.add_assoc, Nat.add_comm 1]

-- The first key that is not in use goes to the first hole, or behind what is used.
theorem getMsgKey_go (hu : ∀ k ∈ used, k ≠ 0) {fuel : ℕ} (hi : 0 < i)
    (he : empty = none ∨ empty = hole used) :
    getMsgKey.go (used ++ 0 :: zs) fuel i empty =
      match Pool.acquire (msgKeys.keysFrom fuel i) used with
      | none     => (-1, used ++ 0 :: zs)
      | some key => (key, (used ++ 0 :: zs).set ((hole used).getD used.length) key) := by
  induction fuel generalizing i empty
  case zero => rfl
  case succ fuel h =>
    simp only [getMsgKey.go, msgKeys.keysFrom, Pool.acquire, List.find?_cons]
    by_cases hm : i ∈ used
    case pos =>
      obtain ⟨j', empty', hs, h'⟩ :
          ∃ j' empty', scanKeys i (used ++ 0 :: zs) 0 empty = (true, j', empty') ∧
            (empty' = empty ∨ empty = none ∧ empty' = (hole used).map (· + 0)) :=
        scanKeys_mem hu hm
      simp only [hs, hm, if_true, not_true_eq_false, decide_false]
      apply h (by omega)
      rcases h' with rfl | ⟨-, rfl⟩
      · exact he
      · exact .inr (by simp)
    case neg =>
      simp only [scanKeys_not_mem hu hm, hm, not_false_eq_true, decide_true, Bool.false_eq_true,
        if_false, Nat.add_zero, Option.map_id']
      rcases he with rfl | rfl
      · simp
      · cases hole used <;> simp

-- The two operations on the entries in use.

theorem set_hole {used' : List Int} (h : hole used = some j) (hu : used' = used.set j key)
    (hk : key ≠ -1) :
    used'.length = used.length ∧ (used'.filter (· ≠ -1)).Perm (used.filter (· ≠ -1) ++ [key]) := by
  obtain ⟨hl, he, -⟩ := List.findIdx?_eq_some_iff_getElem.mp h
  subst hu
  have he : used[j] = -1 := by simpa using he
  have hd : used = used.take j ++ -1 :: used.drop (j + 1) := by
    rw [← he, List.getElem_cons_drop, List.take_append_drop]
  refine ⟨List.length_set, ?_⟩
  conv_rhs => rw [hd]
  rw [List.set_eq_take_append_cons_drop, if_pos hl]
  simpa [List.filter_append, List.filter_cons, hk] using
    (List.perm_middle.trans (List.perm_append_singleton _ _).symm)

theorem length_delMsgKey : (delMsgKey key keyCache).length = keyCache.length := by
  induction keyCache
  case nil => rfl
  case cons k ks hi =>
    simp only [delMsgKey]
    split
    · rfl
    · exact congrArg (· + 1) hi

theorem delMsgKey_mem (hu : ∀ k ∈ used, k ≠ 0) (hk : key ≠ -1) (hm : key ∈ used) :
    ∃ used', delMsgKey key (used ++ zs) = used' ++ zs ∧
      (used'.filter (· ≠ -1)) = (used.filter (· ≠ -1)).erase key := by
  induction used
  case nil => simp at hm
  case cons k used h =>
    have h₀ : k ≠ 0 := hu k List.mem_cons_self
    simp only [List.cons_append, delMsgKey, h₀, or_false]
    split
    case isTrue he =>
      subst he
      exact ⟨-1 :: used, rfl, by simp [hk]⟩
    case isFalse hne =>
      have ⟨used', he, h⟩ := h (fun k hk => hu k (List.mem_cons_of_mem _ hk))
        ((List.mem_cons.mp hm).resolve_left (Ne.symm hne))
      refine ⟨k :: used', by rw [he, List.cons_append], ?_⟩
      by_cases hk' : k = -1
      case pos => simpa [hk'] using h
      case neg => simpa [hk', hne] using h

end

-- The keys that are marked as in use.
def allocated (keyCache : List Int) : List Int :=
  keyCache.filter fun k => k ≠ 0 ∧ k ≠ -1

namespace Caching

variable {cfg : ConfigParams} {keyCache used held : List Int} {key : Int}

theorem one_le (h : Caching cfg keyCache held) : 1 ≤ cfg.msgKeyMax := by
  obtain ⟨used, n, rfl, -⟩ := h.entries
  have := h.length
  rw [List.length_append, List.length_replicate] at this
  omega

theorem pos (h : Caching cfg keyCache held) (hm : key ∈ held) : 0 < key :=
  Int.lt_of_le_of_lt h.start (mem_msgKeys.mp (h.valid.mem key hm)).left

theorem mem_used (h : Caching cfg keyCache held) (hp : (used.filter (· ≠ -1)).Perm held) :
    (∀ k ∈ used, k ≠ 0) ∧ ∀ k, k ≠ -1 → (k ∈ used ↔ k ∈ held) := by
  have hm : ∀ k, k ≠ -1 → (k ∈ used ↔ k ∈ held) := fun k hk => by simp [← hp.mem_iff, hk]
  refine ⟨fun k hu h₀ => ?_, hm⟩
  have := h.pos ((hm k (by omega)).mp hu)
  omega

theorem getMsgKey (h : Caching cfg keyCache held) :
    Pool.acquire (msgKeys cfg) held = none ∧ getMsgKey cfg keyCache = (-1, keyCache) ∨
    ∃ key keyCache', Pool.acquire (msgKeys cfg) held = some key ∧
      Pids.getMsgKey cfg keyCache = (key, keyCache') ∧ Caching cfg keyCache' (held ++ [key]) := by
  obtain ⟨used, n, rfl, hp⟩ := h.entries
  have ⟨hu, hm⟩ := h.mem_used hp
  have hlen := h.length
  have hpos : 0 < cfg.msgKeyStart + 1 := Int.lt_add_one_of_le h.start
  have hg := @getMsgKey_go _ (.replicate n 0) _ none hu (cfg.msgKeyMax - 1).toNat hpos (.inl rfl)
  have ha : Pool.acquire (msgKeys cfg) used = Pool.acquire (msgKeys cfg) held :=
    Pool.acquire_congr fun k hk => hm k (by
      have := h.start
      have := (mem_msgKeys.mp hk).left
      omega)
  rw [← msgKeys, ha] at hg
  rw [List.replicate_succ, Pids.getMsgKey, hg]
  cases hk : Pool.acquire (msgKeys cfg) held
  case none => exact .inl ⟨rfl, rfl⟩
  case some key =>
    refine .inr ⟨key, _, rfl, rfl, ?_⟩
    have hv := h.valid.acquire hk
    have hkey : key ≠ -1 := by
      have := h.start
      have := (mem_msgKeys.mp (Pool.acquire_some hk).left).left
      omega
    have hle : held.length < (msgKeys cfg).length := by
      have := hv.length_le
      rw [List.length_append, List.length_singleton] at this
      omega
    rw [msgKeys, length_keysFrom] at hle
    refine ⟨?_, h.start, hv, ?_⟩
    · rw [List.length_set, ← List.replicate_succ, hlen]
    cases hh : hole used
    case some j =>
      -- The first hole gets the key.
      have ⟨hl, hp'⟩ := set_hole hh rfl hkey
      have hj := (List.findIdx?_eq_some_iff_getElem.mp hh).choose
      refine ⟨used.set j key, n, ?_, hp'.trans (hp.append_right _)⟩
      rw [Option.getD_some, List.set_append_left _ _ hj, List.replicate_succ]
    case none =>
      -- Then as many entries are used as keys are held, so there is another 0 behind the first.
      have hf : used.filter (· ≠ -1) = used := by
        simpa [hole, List.findIdx?_eq_none_iff] using hh
      rw [hf] at hp
      have hl := hp.length_eq
      rw [List.length_append, List.length_replicate] at hlen
      obtain ⟨m, rfl⟩ : ∃ m, n = m + 1 := ⟨n - 1, by omega⟩
      refine ⟨used ++ [key], m, ?_, ?_⟩
      · simp
      · rw [List.filter_append, hf]
        simpa [hkey] using hp.append_right [key]

theorem delMsgKey (h : Caching cfg keyCache held) (hk : key ∈ held) :
    Caching cfg (delMsgKey key keyCache) (held.erase key) := by
  obtain ⟨used, n, rfl, hp⟩ := h.entries
  have ⟨hu, hm⟩ := h.mem_used hp
  have hne : key ≠ -1 := by
    have := h.pos hk
    omega
  have ⟨used', he, hf⟩ := @delMsgKey_mem used (.replicate (n + 1) 0) key hu hne
    ((hm key hne).mpr hk)
  refine ⟨?_, h.start, h.valid.release, used', n, he, ?_⟩
  · rw [length_delMsgKey, h.length]
  · rw [hf]
    exact hp.erase key

-- Each key that is held has one entry, and no other key has one.
theorem count (h : Caching cfg keyCache held) (hk : 0 < key) :
    keyCache.count key = if key ∈ held then 1 else 0 := by
  obtain ⟨used, n, rfl, hp⟩ := h.entries
  have hne : key ≠ -1 := by omega
  have hf : (used.filter (· ≠ -1)).count key = used.count key := List.count_filter (by simpa)
  rw [List.count_append, ← hf, hp.count_eq, List.count_replicate,
    List.Nodup.count h.valid.nodup]
  simp [Int.ne_of_lt hk]

theorem allocated (h : Caching cfg keyCache held) : (allocated keyCache).Perm held := by
  obtain ⟨used, n, rfl, hp⟩ := h.entries
  have hu := (h.mem_used hp).left
  have hf : Pids.allocated (used ++ .replicate (n + 1) 0) = used.filter (· ≠ -1) := by
    have hz : Pids.allocated (.replicate (n + 1) 0) = [] := by simp [Pids.allocated]
    rw [Pids.allocated, List.filter_append, ← Pids.allocated, ← Pids.allocated, hz, List.append_nil]
    exact List.filter_congr fun k hk => by simp [hu k hk]
  exact hf ▸ hp

theorem perm {held' : List Int} (h : Caching cfg keyCache held) (hp : held.Perm held') :
    Caching cfg keyCache held' := by
  have ⟨used, n, he, hu⟩ := h.entries
  exact ⟨h.length, h.start, h.valid.perm hp, used, n, he, hu.trans hp⟩

-- `miscInit`
theorem zeroed (hmax : 1 ≤ cfg.msgKeyMax) (hstart : 0 ≤ cfg.msgKeyStart) :
    Caching cfg (.replicate cfg.msgKeyMax.toNat 0) [] := by
  have hn : cfg.msgKeyMax.toNat = cfg.msgKeyMax.toNat - 1 + 1 := by omega
  refine ⟨?_, hstart, ⟨.nil, nofun⟩, [], cfg.msgKeyMax.toNat - 1, by rw [← hn]; rfl, .refl _⟩
  rw [List.length_replicate]
  omega

end Caching

-- `keyCache` and the keys that are in use.
structure Keys where
  keyCache : List Int
  held : List Int

namespace Keys

inductive Label
  | getMsgKey
  | delMsgKey (key : Int)

def exec (cfg : ConfigParams) : Label → Keys → Option Keys
  | .getMsgKey, s     =>
    let (key, keyCache) := getMsgKey cfg s.keyCache
    some ⟨keyCache, if key < 0 then s.held else s.held ++ [key]⟩
  | .delMsgKey key, s =>
    if key ∈ s.held then some ⟨delMsgKey key s.keyCache, s.held.erase key⟩ else none

def Step (cfg : ConfigParams) (s : Keys) (l : Label) (s' : Keys) : Prop :=
  exec cfg l s = some s'

-- `miscInit`
def init (cfg : ConfigParams) : Keys :=
  ⟨.replicate cfg.msgKeyMax.toNat 0, []⟩

def InRange (cfg : ConfigParams) (key : Int) : Prop :=
  cfg.msgKeyStart < key ∧ key < cfg.msgKeyStart + cfg.msgKeyMax

-- The keys in use are distinct and have one entry each, `getMsgKey` brings another one unless there
-- is none, both operations stay within the cache, and a key that is not in use can be got again.
structure Sound (cfg : ConfigParams) (s : Keys) : Prop where
  nodup     : s.held.Nodup
  range     : ∀ key ∈ s.held, InRange cfg key
  entry     : ∀ key, InRange cfg key → s.keyCache.count key = if key ∈ s.held then 1 else 0
  returned  : ∀ key, (getMsgKey cfg s.keyCache).1 = key →
    InRange cfg key ∧ key ∉ s.held ∨ key = -1 ∧ s.held.length = cfg.msgKeyMax - 1
  getInside : getMsgKeyAt cfg s.keyCache = some (getMsgKey cfg s.keyCache)
  delInside : ∀ key, delMsgKeyAt cfg key s.keyCache = some (delMsgKey key s.keyCache)
  again     : ∀ key, InRange cfg key → key ∉ s.held →
    ∃ tr s', Run (Step cfg) s tr s' ∧ (∀ l ∈ Run.labels tr, l = .getMsgKey) ∧ key ∈ s'.held

variable {cfg : ConfigParams} {s s' : Keys} {l : Label}

theorem exec_getMsgKey (h : Caching cfg s.keyCache s.held) : ∃ s', Step cfg s .getMsgKey s' ∧
    s'.held = s.held ++ (Pool.acquire (msgKeys cfg) s.held).toList ∧
    Caching cfg s'.keyCache s'.held := by
  rcases h.getMsgKey with ⟨ha, hg⟩ | ⟨key, keyCache, ha, hg, hc⟩
  case inl =>
    refine ⟨s, ?_, by simp [ha], h⟩
    simp [Step, exec, hg]
  case inr =>
    have hk : ¬key < 0 := by
      have : 0 < key := hc.pos (by simp)
      omega
    refine ⟨⟨keyCache, s.held ++ [key]⟩, ?_, by simp [ha], hc⟩
    simp [Step, exec, hg, hk]

theorem Step.caching (h : Caching cfg s.keyCache s.held) (e : Step cfg s l s') :
    Caching cfg s'.keyCache s'.held := by
  cases l
  case getMsgKey =>
    obtain ⟨_, he, -, hc⟩ := exec_getMsgKey h
    cases e.symm.trans he
    exact hc
  case delMsgKey key =>
    have ⟨hk, e⟩ := Option.ite_none_right_eq_some.mp e
    cases e
    exact h.delMsgKey hk

theorem exists_getMsgKeys (h : Caching cfg s.keyCache s.held) (n : ℕ) : ∃ tr s',
    Run (Step cfg) s tr s' ∧ (∀ l ∈ Run.labels tr, l = .getMsgKey) ∧
    s'.held = Pool.acquires (msgKeys cfg) n s.held := by
  induction n generalizing s
  case zero => exact ⟨[], s, .refl, by simp [Run.labels], rfl⟩
  case succ n hi =>
    obtain ⟨s₁, e, he, hc⟩ := exec_getMsgKey h
    obtain ⟨tr, s', r, hl, hh⟩ := hi hc
    refine ⟨_ :: tr, s', .step e r, ?_, by rw [hh, he, Pool.acquires]⟩
    simpa [Run.labels] using hl

theorem Sound.of_caching (h : Caching cfg s.keyCache s.held) :
    Sound cfg s where
  nodup        := h.valid.nodup
  range key hk := mem_msgKeys.mp (h.valid.mem key hk)
  entry key hk := h.count (Int.lt_of_le_of_lt h.start hk.left)
  returned := by
    rintro _ rfl
    rcases h.getMsgKey with ⟨ha, hg⟩ | ⟨key, _, ha, hg, -⟩ <;> rw [hg]
    case inl =>
      have hl := (h.valid.acquire_eq_none_iff (nodup_msgKeys cfg)).mp ha
      exact .inr ⟨rfl, by rw [hl, length_msgKeys h.one_le]⟩
    case inr =>
      have ⟨hm, hn⟩ := Pool.acquire_some ha
      exact .inl ⟨mem_msgKeys.mp hm, hn⟩
  getInside     := getMsgKeyAt_eq h.length
  delInside _   := delMsgKeyAt_eq h.length
  again key hk _ := by
    have ⟨tr, s', r, hl, hh⟩ := exists_getMsgKeys h (msgKeys cfg).length
    refine ⟨tr, s', r, hl, hh ▸ ?_⟩
    exact Pool.mem_acquires (nodup_msgKeys cfg) h.valid (Nat.le_add_left _ _) (mem_msgKeys.mpr hk)

-- Whatever the order in which keys are got and deleted.
theorem sound_of_run (hmax : 1 ≤ cfg.msgKeyMax) (hstart : 0 ≤ cfg.msgKeyStart)
    {tr : List (Keys × Label)} (r : Run (Step cfg) (init cfg) tr s) : Run.Always (Sound cfg) tr s :=
  (r.always_of_meets (C := fun _ _ => True) (fun _ _ _ h _ e => e.caching h)
    (.zeroed hmax hstart) fun _ _ => trivial).mono fun _ h => .of_caching h

section

-- Two keys are got and deleted, and the first hole gets the first key again.
theorem sound_of_run_witness :
    ∃ s, Run (Step ⟨0, 10, 100, 100, 4⟩) (init ⟨0, 10, 100, 100, 4⟩)
      (Run.partialTrace (exec ⟨0, 10, 100, 100, 4⟩) [.getMsgKey, .getMsgKey, .delMsgKey 101,
        .delMsgKey 102, .getMsgKey] (init ⟨0, 10, 100, 100, 4⟩)) s ∧
      Sound ⟨0, 10, 100, 100, 4⟩ s ∧ s.keyCache = [101, -1, 0, 0] := by
  have r := Run.of_partialTrace (exec ⟨0, 10, 100, 100, 4⟩) [.getMsgKey, .getMsgKey, .delMsgKey 101,
    .delMsgKey 102, .getMsgKey] (init ⟨0, 10, 100, 100, 4⟩) rfl
  exact ⟨_, r, (sound_of_run (by decide) (by decide) r).last, rfl⟩

end

end Keys

end Pids
