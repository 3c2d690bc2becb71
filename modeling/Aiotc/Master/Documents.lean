import Aiotc.Master.Database
import Aiotc.Share.Queue

-- What an update does to the fields of a document, as the database reads them and as cJSON does.

namespace Bson

def member (name : CStr) (child : List (CStr × CJson)) : Option CJson :=
  (child.find? (·.1 = name)).map Prod.snd

-- The field at a path that leads through objects only.
def get : List CStr → CJson → Option CJson
  | [], j                     => some j
  | name :: names, .object child => (member name child).bind (get names)
  | _ :: _, _                 => none

-- There is nothing but objects in front of the end of the path.
def Plain : List CStr → CJson → Prop
  | [], _                     => True
  | name :: names, .object child => ∀ j, member name child = some j → Plain names j
  | _ :: _, _                 => False

-- The names of the path are the first ones that cJSON takes for them.
def Exact : List CStr → CJson → Prop
  | [], _                     => True
  | name :: names, .object child =>
    child.find? (CJson.strcasecmp ·.1 name) = child.find? (·.1 = name) ∧
      ∀ j, member name child = some j → Exact names j
  | _ :: _, _                 => True

def lower (name : CStr) : CStr :=
  name.map Char.toLower

-- Paths that part before either of them ends.
def Apart : List CStr → List CStr → Prop
  | a :: as, b :: bs => lower a ≠ lower b ∨ a = b ∧ Apart as bs
  | _, _             => False

instance decidableApart : (as bs : List CStr) → Decidable (Apart as bs)
  | _ :: as, _ :: bs =>
    have := decidableApart as bs
    inferInstanceAs (Decidable (_ ∨ _ ∧ _))
  | [], _            => inferInstanceAs (Decidable False)
  | _ :: _, []       => inferInstanceAs (Decidable False)

theorem Apart.ne {as bs : List CStr} (h : Apart as bs) : as ≠ bs := by
  rintro rfl
  induction as
  case nil => exact h
  case cons a as hi =>
    rcases h with h | ⟨-, h⟩
    · exact h rfl
    · exact hi h

section

variable {name m : CStr} {names path : List CStr} {child : List (CStr × CJson)} {doc doc' j : CJson}
  {cmd : Cmd} {val : DbVal}

-- The members of an object after one of them was set.

theorem find?_setMember_self (name : CStr) (j : CJson) (child : List (CStr × CJson)) :
    (setMember name j child).find? (·.1 = name) = some (name, j) := by
  induction child
  case nil => simp [setMember]
  case cons x child hi =>
    simp only [setMember]
    split
    case isTrue hx  => simp [hx]
    case isFalse hx => simpa [hx] using hi

theorem find?_setMember_of_false {p : CStr → Bool} (hp : p name = false) :
    (setMember name j child).find? (p ·.1) = child.find? (p ·.1) := by
  induction child
  case nil => simp [setMember, hp]
  case cons x child hi =>
    simp only [setMember]
    split
    case isTrue hx  => simp [hx, hp]
    case isFalse hx => simp [List.find?_cons, hi]

@[simp]
theorem member_setMember_self : member name (setMember name j child) = some j := by
  simp [member, find?_setMember_self]

theorem member_setMember_of_ne (h : m ≠ name) :
    member m (setMember name j child) = member m child :=
  congrArg (Option.map Prod.snd) (find?_setMember_of_false (p := (· = m)) (by simpa using h.symm))

theorem exact_setMember_self
    (h : child.find? (CJson.strcasecmp ·.1 name) = child.find? (·.1 = name)) :
    (setMember name j child).find? (CJson.strcasecmp ·.1 name) =
      (setMember name j child).find? (·.1 = name) := by
  induction child
  case nil => simp [setMember, CJson.strcasecmp]
  case cons x child hi =>
    simp only [setMember]
    by_cases hx : x.1 = name
    case pos => simp [hx, CJson.strcasecmp]
    case neg =>
      have hc : CJson.strcasecmp x.1 name = false := by
        by_contra hc
        have hm := List.find?_some (h ▸ List.find?_cons_of_pos (by simpa using hc))
        exact hx (by simpa using hm)
      rw [if_neg hx, List.find?_cons_of_neg (by simp [hc]), List.find?_cons_of_neg (by simp [hx])]
      rw [List.find?_cons_of_neg (by simp [hc]), List.find?_cons_of_neg (by simp [hx])] at h
      exact hi h

theorem find?_strcasecmp_of_ne (h : lower name ≠ lower m) :
    (setMember name j child).find? (CJson.strcasecmp ·.1 m) =
      child.find? (CJson.strcasecmp ·.1 m) :=
  find?_setMember_of_false (p := (CJson.strcasecmp · m)) <| by
    simpa [CJson.strcasecmp, lower] using h

-- How the paths are read.

theorem fields_nil (names : List CStr) :
    names.foldl (fun js name => js.flatMap (field name)) ([] : List CJson) = [] := by
  induction names
  case nil        => rfl
  case cons _ _ h => exact h

theorem fields_cons (name : CStr) (names : List CStr) (child : List (CStr × CJson)) :
    fields (name :: names) (.object child) = ((member name child).map (fields names)).getD [] := by
  simp only [fields, List.foldl_cons, List.flatMap_cons, List.flatMap_nil, List.append_nil, field,
    field.member, member]
  cases child.find? (·.1 = name)
  case none   => exact fields_nil names
  case some _ => rfl

theorem fields_eq (h : Plain names doc) : fields names doc = (get names doc).toList := by
  induction names generalizing doc
  case nil => rfl
  case cons name names hi =>
    cases doc <;> try exact h.elim
    case object child =>
      rw [fields_cons, get]
      cases hm : member name child
      case none   => rfl
      case some j => exact hi (h j hm)

theorem getSubFromJson_eq (h : Exact names j) : getSubFromJson (some j) names = get names j := by
  simp only [getSubFromJson, Option.bind_eq_bind, Option.bind_some]
  induction names generalizing j
  case nil => rfl
  case cons name names hi =>
    cases j <;> try rfl
    case object child =>
      obtain ⟨he, h⟩ := h
      simp only [List.foldlM_cons, CJson.getObjectItem, he, get, ← member.eq_def]
      cases hm : member name child
      case none   => rfl
      case some j => exact hi (h j hm)

-- The document is `none` where it is still to be created.
theorem update_cons {doc : Option CJson} (h : update cmd val (name :: names) doc = some doc') :
    ∃ child j, (doc = none ∧ child = [] ∨ doc = some (.object child)) ∧
      update cmd val names (member name child) = some j ∧
      doc' = .object (setMember name j child) := by
  simp only [update] at h
  split at h
  case h_2 => cases h
  case h_1 child hc =>
    have ⟨j, hj, h⟩ := Option.bind_eq_some_iff.mp h
    cases h
    refine ⟨child, j, ?_, hj, rfl⟩
    cases doc
    case none =>
      cases hc
      exact .inl ⟨rfl, rfl⟩
    case some d =>
      cases hc
      exact .inr rfl

-- What an update leaves at its path, and when there is one.

theorem update_get {names : List CStr} {doc : Option CJson}
    (h : update cmd val names doc = some doc') :
    get names doc' = cmd.apply val (doc.bind (get names)) := by
  induction names generalizing doc doc'
  case nil => simpa [update, get] using h.symm
  case cons name names hi =>
    obtain ⟨child, j, hc, hj, rfl⟩ := update_cons h
    rw [get, member_setMember_self, Option.bind_some, hi hj]
    rcases hc with ⟨rfl, rfl⟩ | rfl <;> rfl

theorem update_isSome_iff {doc : Option CJson} (h : ∀ d ∈ doc, Plain names d) :
    (update cmd val names doc).isSome ↔ (cmd.apply val (doc.bind (get names))).isSome := by
  have hb : ∀ (o : Option CJson) (f : CJson → CJson),
      (o.bind fun j => some (f j)).isSome = o.isSome :=
    fun o _ => by cases o <;> rfl
  induction names generalizing doc
  case nil => cases doc <;> rfl
  case cons name names hi =>
    cases doc
    case none =>
      have hi := @hi none nofun
      simpa [update, member, hb] using hi
    case some d =>
      have hd := h d rfl
      cases d <;> try exact hd.elim
      case object child =>
        have hi := @hi (member name child) hd
        simpa [update, get, ← member.eq_def, hb] using hi

theorem update_plain {doc : Option CJson} (h : ∀ d ∈ doc, Plain names d)
    (hu : update cmd val names doc = some doc') : Plain names doc' := by
  induction names generalizing doc doc'
  case nil => trivial
  case cons name names hi =>
    obtain ⟨child, j, hc, hj, rfl⟩ := update_cons hu
    have hj' : Plain names j := by
      refine hi (fun d hd => ?_) hj
      rcases hc with ⟨-, rfl⟩ | rfl
      · cases hd
      · exact h _ rfl d hd
    rintro _ hm
    rw [member_setMember_self] at hm
    cases hm
    exact hj'

-- The fields at other paths stay.

theorem update_fields_of_apart {doc : Option CJson} (ha : Apart names path)
    (h : update cmd val names doc = some doc') :
    fields path doc' = (doc.map (fields path)).getD [] := by
  induction names generalizing path doc doc'
  case nil => exact ha.elim
  case cons name names hi =>
    cases path
    case nil => exact ha.elim
    case cons m path =>
      obtain ⟨child, j, hc, hj, rfl⟩ := update_cons h
      have hd : (doc.map (fields (m :: path))).getD [] =
          ((member m child).map (fields path)).getD [] := by
        rcases hc with ⟨rfl, rfl⟩ | rfl
        · rfl
        · exact fields_cons m path child
      rw [hd, fields_cons]
      rcases ha with ha | ⟨rfl, ha⟩
      · rw [member_setMember_of_ne fun he => ha (congrArg lower he.symm)]
      · rw [member_setMember_self, Option.map_some, Option.getD_some, hi ha hj]

theorem update_exact {doc : Option CJson} (he : ∀ d ∈ doc, Exact path d)
    (hp : path = names ∨ Apart names path) (h : update cmd val names doc = some doc') :
    Exact path doc' := by
  induction names generalizing path doc doc'
  case nil =>
    rcases hp with rfl | ha
    · trivial
    · exact ha.elim
  case cons name names hi =>
    cases path
    case nil => trivial
    case cons m path =>
      obtain ⟨child, j, hc, hj, rfl⟩ := update_cons h
      have he : child.find? (CJson.strcasecmp ·.1 m) = child.find? (·.1 = m) ∧
          ∀ d, member m child = some d → Exact path d := by
        rcases hc with ⟨-, rfl⟩ | rfl
        · exact ⟨rfl, nofun⟩
        · exact he _ rfl
      by_cases hm : lower name = lower m
      case pos =>
        have ⟨hn, hp'⟩ : m = name ∧ (path = names ∨ Apart names path) := by
          rcases hp with hp | hp | ⟨hn, hp⟩
          · exact ⟨(List.cons.inj hp).left, .inl (List.cons.inj hp).right⟩
          · exact absurd hm hp
          · exact ⟨hn.symm, .inr hp⟩
        subst hn
        refine ⟨exact_setMember_self he.left, fun d hd => ?_⟩
        rw [member_setMember_self] at hd
        cases hd
        exact hi he.right hp' hj
      case neg =>
        have hne : m ≠ name := fun h => hm (h ▸ rfl)
        refine ⟨?_, fun d hd => ?_⟩
        · rw [find?_strcasecmp_of_ne hm, he.left]
          exact (find?_setMember_of_false (p := (· = m)) (by simpa using hne.symm)).symm
        · rw [member_setMember_of_ne hne] at hd
          exact he.right d hd

-- What cJSON reads at other paths stays, whatever the names that it takes for theirs.

theorem getSubFromJson_cons (buf : Text) (m : CStr) (path : List CStr) :
    getSubFromJson buf (m :: path) = getSubFromJson (buf.bind (CJson.getObjectItem m)) path := by
  cases buf <;> rfl

-- The member that cJSON takes for the one that is set is this one, or is left alone.
theorem find?_strcasecmp_setMember (name : CStr) (j : CJson) (child : List (CStr × CJson)) :
    child.find? (CJson.strcasecmp ·.1 name) = child.find? (·.1 = name) ∨
    (setMember name j child).find? (CJson.strcasecmp ·.1 name) =
      child.find? (CJson.strcasecmp ·.1 name) := by
  induction child
  case nil => exact .inl rfl
  case cons x child hi =>
    by_cases hx : x.1 = name
    case pos => exact .inl (by simp [hx, CJson.strcasecmp])
    case neg =>
      by_cases hc : CJson.strcasecmp x.1 name
      case pos => exact .inr (by simp [setMember, hx, hc])
      case neg => simpa [setMember, hx, hc] using hi

theorem update_getSub_of_apart {doc : Option CJson} (ha : Apart names path)
    (h : update cmd val names doc = some doc') :
    getSubFromJson (some doc') path = getSubFromJson doc path := by
  induction names generalizing path doc doc'
  case nil => exact ha.elim
  case cons name names hi =>
    cases path
    case nil => exact ha.elim
    case cons m path =>
      obtain ⟨child, j, hc, hj, rfl⟩ := update_cons h
      have hd : doc.bind (CJson.getObjectItem m) =
          (child.find? (CJson.strcasecmp ·.1 m)).map Prod.snd := by
        rcases hc with ⟨rfl, rfl⟩ | rfl <;> rfl
      rw [getSubFromJson_cons, getSubFromJson_cons, hd, Option.bind_some, CJson.getObjectItem]
      rcases ha with ha | ⟨rfl, ha⟩
      · rw [find?_strcasecmp_of_ne ha]
      · rcases find?_strcasecmp_setMember name j child with he | he
        · rw [exact_setMember_self he, find?_setMember_self, he]
          exact hi ha hj
        · rw [he]

end

-- What `dbUpdate` makes of the document that it selects.
def updateDoc (cmd : Cmd) (val : DbVal) (names : List CStr) (doc : CJson) : CJson :=
  (update cmd val names (some doc)).getD doc

theorem fields_updateDoc {cmd : Cmd} {val : DbVal} {names path : List CStr} (ha : Apart names path)
    (doc : CJson) : fields path (updateDoc cmd val names doc) = fields path doc := by
  rw [updateDoc]
  cases hu : update cmd val names (some doc)
  case none   => rfl
  case some _ => exact update_fields_of_apart ha hu

theorem selects_updateDoc {cmd : Cmd} {val : DbVal} {names path : List CStr} (ha : Apart names path)
    (sel : DbVal) (doc : CJson) :
    selects path sel (updateDoc cmd val names doc) = selects path sel doc := by
  rw [selects, selects, fields_updateDoc ha]

theorem dbUpdate_eq (cmd : Cmd) (selectName names : List CStr) (sel val : DbVal)
    (docs : Collection) : dbUpdate cmd selectName sel names val docs =
      Queue.modifyFound (selects selectName sel) (updateDoc cmd val names) docs := by
  induction docs
  case nil => rfl
  case cons doc docs hi =>
    simp only [dbUpdate, Queue.modifyFound, hi]
    rfl

end Bson
