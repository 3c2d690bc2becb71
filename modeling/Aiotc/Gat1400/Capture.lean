import Mathlib.Algebra.Ring.Rat
import Mathlib.Data.List.Perm.Basic
import Mathlib.Data.List.Forall2
import Aiotc.Share.Queue
import Aiotc.Work.Json

-- gat1400.cpp: what a capture notification is turned into.

open Queue

-- The types of notifications that are supported.
inductive Gat1400Datatype
  | face
  | person
  | veh
  | nonmotor

-- `randnum` is what `rand` returns when the image is parsed.
structure SubImageInfo where
  type : CStr
  shotTime : CStr
  randnum : Int

-- The members of Face, Person, MotorVehicle and NonMotorVehicle that are read.
structure Gat1400Obj where
  leftTopX : Int
  leftTopY : Int
  rightBtmX : Int
  rightBtmY : Int
  shotTime : CStr
  subImageList : List SubImageInfo

-- What the callback does not change: the object that it is registered for and its host, how a
-- coordinate in thousandths is stored, and what `strptime` and `mktime` make of a time.
structure Gat1400Env (F : Type) where
  id : Int
  localIp : CStr
  httpPort : Int
  date : CStr
  milli : Int → F
  mktime : CStr → Int

-- `jsonParams` of the object is cleared by each notification.
structure Gat1400 (F : Type) where
  frameId : Int := 0
  pOutQueue : List (OutJson F) := []

-- The outcomes of `cJSON_Print` and of the two allocations behind it.
structure Gat1400Malloc where
  print : Bool := true
  json : Bool := true
  node : Bool := true

namespace Gat1400

variable {F : Type}

def gat1400Timestamp (env : Gat1400Env F) (time : CStr) : Int :=
  if time = [] then 0 else env.mktime time

def imgUrl (env : Gat1400Env F) (frameId timestamp : Int) (img : SubImageInfo) : ImgUrl where
  localIp := env.localIp
  httpPort := env.httpPort
  date := env.date
  id := env.id
  frameId := frameId
  timestamp := timestamp
  type := img.type
  randnum := img.randnum

-- The file that is written for the image has the same name.
def parseImage (env : Gat1400Env F) (frameId : Int) (p : OutJsonParams F) (img : SubImageInfo) :
    OutJsonParams F :=
  let timestamp := if p.timestamp = 0 then gat1400Timestamp env img.shotTime else p.timestamp
  let filename := some (imgUrl env frameId timestamp img)
  let p := { p with timestamp := timestamp, id := env.id }
  if img.type = "14" then
    { p with sceneUrl := filename }
  else if img.type = "11" then
    { p with faceUrl := filename }
  else if img.type = "10" then
    { p with personBodyUrl := filename }
  else if img.type = "01" then
    { p with sceneUrl := filename }
  else if img.type = "02" then
    { p with vehBodyUrl := filename }
  else if img.type = "12" then
    { p with personBodyUrl := filename }
  else
    p

def rect (env : Gat1400Env F) (o : Gat1400Obj) : Rectt F where
  x := env.milli o.leftTopX
  y := env.milli o.leftTopY
  w := env.milli (o.rightBtmX - o.leftTopX)
  h := env.milli (o.rightBtmY - o.leftTopY)

def parseImages (env : Gat1400Env F) (frameId : Int) (o : Gat1400Obj) (p : OutJsonParams F) :
    OutJsonParams F :=
  o.subImageList.foldl (parseImage env frameId) p

def parseFaceList (env : Gat1400Env F) (frameId : Int) (p : OutJsonParams F) (face : Gat1400Obj) :
    OutJsonParams F :=
  parseImages env frameId face { p with
    faceRect := rect env face
    timestamp := gat1400Timestamp env face.shotTime }

def parsePersonList (env : Gat1400Env F) (frameId : Int) (p : OutJsonParams F)
    (person : Gat1400Obj) : OutJsonParams F :=
  parseImages env frameId person { p with
    personBodyRect := rect env person
    timestamp := gat1400Timestamp env person.shotTime }

def parseVehList (env : Gat1400Env F) (frameId : Int) (p : OutJsonParams F) (veh : Gat1400Obj) :
    OutJsonParams F :=
  parseImages env frameId veh { p with vehBodyRect := rect env veh }

def parseNonMotorList (env : Gat1400Env F) (frameId : Int) (p : OutJsonParams F)
    (nonmotor : Gat1400Obj) : OutJsonParams F :=
  parseImages env frameId nonmotor { p with personBodyRect := rect env nonmotor }

def parseObjList (env : Gat1400Env F) (frameId : Int) :
    Gat1400Datatype → OutJsonParams F → Gat1400Obj → OutJsonParams F
  | .face     => parseFaceList env frameId
  | .person   => parsePersonList env frameId
  | .veh      => parseVehList env frameId
  | .nonmotor => parseNonMotorList env frameId

-- `memset` and the members that are set before the objects are parsed.
def initParams [Zero F] (env : Gat1400Env F) : OutJsonParams F where
  msgType := "common"
  id := env.id
  faceRect := ⟨0, 0, 0, 0⟩
  personBodyRect := ⟨0, 0, 0, 0⟩
  plateRect := ⟨0, 0, 0, 0⟩
  vehBodyRect := ⟨0, 0, 0, 0⟩

def jsonParams [Zero F] (env : Gat1400Env F) (frameId : Int) (datatype : Gat1400Datatype)
    (objs : List Gat1400Obj) : OutJsonParams F :=
  objs.foldl (parseObjList env frameId datatype) (initParams env)

def copyToMqQueue (json : OutJson F) (malloc : Gat1400Malloc) (s : Gat1400 F) : Gat1400 F :=
  if malloc.json then
    { s with pOutQueue := (putToShmQueue json 1000 malloc.node s.pOutQueue).2 }
  else
    s

-- `datatype` is `none` where it is not supported.
def gat1400CaptureCallback [Zero F] (env : Gat1400Env F) (datatype : Option Gat1400Datatype)
    (objs : List Gat1400Obj) (malloc : Gat1400Malloc) (s : Gat1400 F) : Gat1400 F :=
  let s := { s with frameId := s.frameId + 1 }
  match datatype with
  | none          => s
  | some datatype =>
    if malloc.print then
      copyToMqQueue (makeJson (jsonParams env s.frameId datatype objs)) malloc s
    else
      s

-- The images that show an object: the face, the body of a person, a vehicle, a two-wheeler.
def ownType : Gat1400Datatype → CStr
  | .face     => "11"
  | .person   => "10"
  | .veh      => "02"
  | .nonmotor => "12"

def images : Gat1400Datatype → OutJson F → List (OutImage F)
  | .face, json     => json.person.filterMap OutPerson.face
  | .person, json   => json.person.filterMap OutPerson.body
  | .veh, json      => json.veh.filterMap OutVeh.body
  | .nonmotor, json => json.person.filterMap OutPerson.body

def owners (datatype : Gat1400Datatype) (objs : List Gat1400Obj) : List Gat1400Obj :=
  objs.filter fun o => o.subImageList.any (·.type = ownType datatype)

-- An image of the object, with its rectangle.
def Shows (env : Gat1400Env F) (datatype : Gat1400Datatype) (frameId : Int) (o : Gat1400Obj)
    (image : OutImage F) : Prop :=
  (∃ img ∈ o.subImageList, img.type = ownType datatype ∧
    ∃ timestamp, image.url = imgUrl env frameId timestamp img) ∧ image.rect = rect env o

-- Among the images of the messages there is one for each object that has one of its own type, and
-- the others do not show any of these objects.
def Exact (env : Gat1400Env F) (datatype : Gat1400Datatype) (objs : List Gat1400Obj) (frameId : Int)
    (msgs : List (OutJson F)) : Prop :=
  ∃ shown rest, (msgs.flatMap (images datatype)).Perm (shown ++ rest) ∧
    List.Forall₂ (Shows env datatype frameId) (owners datatype objs) shown ∧
    ∀ image ∈ rest, ∀ o ∈ owners datatype objs, ¬Shows env datatype frameId o image

-- The images whose url is put where that of the objects is put.
def written : Gat1400Datatype → SubImageInfo → Bool
  | .face, img     => img.type = "11"
  | .person, img   => img.type = "10" ∨ img.type = "12"
  | .veh, img      => img.type = "02"
  | .nonmotor, img => img.type = "10" ∨ img.type = "12"

def lastWritten (datatype : Gat1400Datatype) (imgs : List SubImageInfo) : Option SubImageInfo :=
  (imgs.filter (written datatype)).getLast?

structure Queued (malloc : Gat1400Malloc) (s : Gat1400 F) : Prop where
  print : malloc.print
  json  : malloc.json
  node  : malloc.node
  room  : s.pOutQueue.length < 1000

-- No object has an image of its own type, or the message is queued, one object has such images and
-- no image that is put in the same place comes behind them, and the last object of the notification
-- has the rectangle of this one.
def Single (env : Gat1400Env F) (datatype : Gat1400Datatype) (objs : List Gat1400Obj)
    (malloc : Gat1400Malloc) (s : Gat1400 F) : Prop :=
  owners datatype objs = [] ∨ Queued malloc s ∧ ∃ o, owners datatype objs = [o] ∧
    (lastWritten datatype (objs.flatMap Gat1400Obj.subImageList)).map SubImageInfo.type =
      some (ownType datatype) ∧
    objs.getLast?.map (rect env) = some (rect env o)

section

variable {env : Gat1400Env F} {datatype : Gat1400Datatype} {frameId : Int} {p p' : OutJsonParams F}
  {objs : List Gat1400Obj} {imgs imgs' : List SubImageInfo} {img : SubImageInfo} {o : Gat1400Obj}

-- The url and the rectangle that the objects of a type share.

def url : Gat1400Datatype → OutJsonParams F → Option ImgUrl
  | .face, p     => p.faceUrl
  | .person, p   => p.personBodyUrl
  | .veh, p      => p.vehBodyUrl
  | .nonmotor, p => p.personBodyUrl

def sharedRect : Gat1400Datatype → OutJsonParams F → Rectt F
  | .face, p     => p.faceRect
  | .person, p   => p.personBodyRect
  | .veh, p      => p.vehBodyRect
  | .nonmotor, p => p.personBodyRect

theorem images_makeJson (datatype : Gat1400Datatype) (p : OutJsonParams F) :
    images datatype (makeJson p) = (addImage (url datatype p) (sharedRect datatype p)).toList := by
  cases datatype
  case face     => exact face_makeJson p
  case person   => exact personBody_makeJson p
  case veh      => exact vehBody_makeJson p
  case nonmotor => exact personBody_makeJson p

-- After some images the url is that of the last one of them that is put there.
def Overwritten (env : Gat1400Env F) (datatype : Gat1400Datatype) (frameId : Int)
    (imgs : List SubImageInfo) (before after : Option ImgUrl) : Prop :=
  match lastWritten datatype imgs with
  | none     => after = before
  | some img => ∃ timestamp, after = some (imgUrl env frameId timestamp img)

theorem lastWritten_append : lastWritten datatype (imgs ++ imgs') =
    (lastWritten datatype imgs').or (lastWritten datatype imgs) := by
  simp [lastWritten]

theorem Overwritten.append {u₁ u₂ u₃ : Option ImgUrl}
    (h : Overwritten env datatype frameId imgs u₁ u₂)
    (h' : Overwritten env datatype frameId imgs' u₂ u₃) :
    Overwritten env datatype frameId (imgs ++ imgs') u₁ u₃ := by
  rw [Overwritten] at h h' ⊢
  rw [lastWritten_append]
  cases hl : lastWritten datatype imgs' <;> rw [hl] at h'
  case none   => exact h' ▸ h
  case some _ => exact h'

-- One image.

theorem types_nodup : [CStr.ofString "14", "11", "10", "01", "02", "12"].Nodup := by
  decide

theorem parseImage_url (env : Gat1400Env F) (datatype : Gat1400Datatype) (frameId : Int)
    (p : OutJsonParams F) (img : SubImageInfo) : ∃ timestamp,
    url datatype (parseImage env frameId p img) = if written datatype img then
      some (imgUrl env frameId timestamp img) else url datatype p := by
  refine ⟨if p.timestamp = 0 then gat1400Timestamp env img.shotTime else p.timestamp, ?_⟩
  have hd := types_nodup
  simp only [List.nodup_cons, List.mem_cons, List.not_mem_nil, not_or] at hd
  simp only [parseImage]
  cases datatype <;> simp only [url, written, decide_eq_true_eq] <;> grind

theorem parseImage_sharedRect (p : OutJsonParams F) (img : SubImageInfo) :
    sharedRect datatype (parseImage env frameId p img) = sharedRect datatype p := by
  simp only [parseImage]
  cases datatype <;> grind [sharedRect]

theorem parseImage_overwritten (p : OutJsonParams F) (img : SubImageInfo) :
    Overwritten env datatype frameId [img] (url datatype p)
      (url datatype (parseImage env frameId p img)) := by
  have ⟨timestamp, hu⟩ := parseImage_url env datatype frameId p img
  rw [Overwritten, hu]
  cases hw : written datatype img
  case false => simp [lastWritten, hw]
  case true  => simpa [lastWritten, hw] using ⟨timestamp, rfl⟩

-- The images of one object, and the object.

theorem parseImages_spec (p : OutJsonParams F) (imgs : List SubImageInfo) :
    Overwritten env datatype frameId imgs (url datatype p)
      (url datatype (imgs.foldl (parseImage env frameId) p)) ∧
    sharedRect datatype (imgs.foldl (parseImage env frameId) p) = sharedRect datatype p := by
  induction imgs generalizing p
  case nil => exact ⟨rfl, rfl⟩
  case cons img imgs hi =>
    have ⟨hu, hr⟩ := hi (parseImage env frameId p img)
    exact ⟨(parseImage_overwritten p img).append hu, hr.trans (parseImage_sharedRect p img)⟩

theorem parseObjList_spec (env : Gat1400Env F) (datatype : Gat1400Datatype) (frameId : Int)
    (p : OutJsonParams F) (o : Gat1400Obj) :
    Overwritten env datatype frameId o.subImageList (url datatype p)
      (url datatype (parseObjList env frameId datatype p o)) ∧
    sharedRect datatype (parseObjList env frameId datatype p o) = rect env o := by
  cases datatype
  all_goals exact parseImages_spec _ o.subImageList

theorem parseObjs_spec (env : Gat1400Env F) (datatype : Gat1400Datatype) (frameId : Int)
    (p : OutJsonParams F) (objs : List Gat1400Obj) :
    Overwritten env datatype frameId (objs.flatMap Gat1400Obj.subImageList) (url datatype p)
      (url datatype (objs.foldl (parseObjList env frameId datatype) p)) ∧
    sharedRect datatype (objs.foldl (parseObjList env frameId datatype) p) =
      (objs.getLast?.map (rect env)).getD (sharedRect datatype p) := by
  induction objs generalizing p
  case nil => exact ⟨rfl, rfl⟩
  case cons o objs hi =>
    have ⟨hu, hr⟩ := parseObjList_spec env datatype frameId p o
    have ⟨hu', hr'⟩ := hi (parseObjList env frameId datatype p o)
    refine ⟨hu.append hu', ?_⟩
    rw [List.foldl_cons, hr', hr, List.getLast?_cons]
    cases objs.getLast? <;> rfl

-- The messages that a notification leads to.
theorem callback_spec [Zero F] (env : Gat1400Env F) (datatype : Gat1400Datatype)
    (objs : List Gat1400Obj) (malloc : Gat1400Malloc) (s : Gat1400 F) : ∃ msgs,
    (gat1400CaptureCallback env (some datatype) objs malloc s).pOutQueue = s.pOutQueue ++ msgs ∧
      (Queued malloc s ∧ msgs = [makeJson (jsonParams env (s.frameId + 1) datatype objs)] ∨
        ¬Queued malloc s ∧ msgs = []) := by
  simp only [gat1400CaptureCallback]
  split
  case isFalse hp => exact ⟨[], by simp, .inr ⟨fun h => hp h.print, rfl⟩⟩
  case isTrue hp =>
    simp only [copyToMqQueue]
    split
    case isFalse hj => exact ⟨[], by simp, .inr ⟨fun h => hj h.json, rfl⟩⟩
    case isTrue hj =>
      rcases putToShmQueue_cases (makeJson (jsonParams env (s.frameId + 1) datatype objs)) 1000
        malloc.node s.pOutQueue with ⟨⟨hr, hn⟩, hq⟩ | ⟨hn, hq⟩
      · exact ⟨_, by rw [hq], .inl ⟨⟨hp, hj, hn, by omega⟩, rfl⟩⟩
      · refine ⟨[], by rw [hq]; simp, .inr ⟨fun h => hn ⟨?_, h.node⟩, rfl⟩⟩
        have := h.room
        omega

theorem mem_owners : o ∈ owners datatype objs ↔
    o ∈ objs ∧ ∃ img ∈ o.subImageList, img.type = ownType datatype := by
  simp [owners]

theorem written_ownType (h : img.type = ownType datatype) : written datatype img := by
  cases datatype <;> simp [written, h, ownType]

theorem mem_of_lastWritten (h : lastWritten datatype imgs = some img) : img ∈ imgs :=
  (List.mem_filter.mp (List.mem_of_getLast? h)).left

-- What is shown in the only message.

structure Shown (env : Gat1400Env F) (datatype : Gat1400Datatype) (frameId : Int)
    (objs : List Gat1400Obj) (image : OutImage F) : Prop where
  lastUrl  : ∃ img timestamp,
    lastWritten datatype (objs.flatMap Gat1400Obj.subImageList) = some img ∧
      image.url = imgUrl env frameId timestamp img
  lastRect : objs.getLast?.map (rect env) = some image.rect

theorem images_jsonParams [Zero F] (env : Gat1400Env F) (frameId : Int)
    (ho : o ∈ owners datatype objs) : ∃ image,
    images datatype (makeJson (jsonParams env frameId datatype objs)) = [image] ∧
      Shown env datatype frameId objs image := by
  have ⟨hm, img, hi, ht⟩ := mem_owners.mp ho
  have ⟨hu, hr⟩ := parseObjs_spec env datatype frameId (initParams env) objs
  obtain ⟨last, hl⟩ : ∃ last,
      lastWritten datatype (objs.flatMap Gat1400Obj.subImageList) = some last := by
    have hf : img ∈ (objs.flatMap Gat1400Obj.subImageList).filter (written datatype) :=
      List.mem_filter.mpr ⟨List.mem_flatMap.mpr ⟨o, hm, hi⟩, written_ownType ht⟩
    exact ⟨_, List.getLast?_eq_some_getLast (List.ne_nil_of_mem hf)⟩
  obtain ⟨obj, hobj⟩ : ∃ obj, objs.getLast? = some obj :=
    ⟨_, List.getLast?_eq_some_getLast (List.ne_nil_of_mem hm)⟩
  rw [Overwritten, hl] at hu
  have ⟨timestamp, hu⟩ := hu
  rw [hobj] at hr
  refine ⟨⟨imgUrl env frameId timestamp last, rect env obj⟩, ?_, ?_⟩
  · rw [images_makeJson, jsonParams, hu, hr]
    rfl
  · exact ⟨⟨last, timestamp, hl, rfl⟩, by rw [hobj]; rfl⟩

theorem Shown.shows_iff {image : OutImage F} (h : Shown env datatype frameId objs image)
    (ho : owners datatype objs = [o]) : Shows env datatype frameId o image ↔
      (lastWritten datatype (objs.flatMap Gat1400Obj.subImageList)).map SubImageInfo.type =
        some (ownType datatype) ∧
      objs.getLast?.map (rect env) = some (rect env o) := by
  have ⟨last, timestamp, hl, hu⟩ := h.lastUrl
  rw [hl, h.lastRect, Option.map_some, Option.some.injEq, Option.some.injEq]
  refine and_congr ⟨?_, fun ht => ?_⟩ Iff.rfl
  case refine_1 =>
    rintro ⟨img, -, ht, timestamp', hu'⟩
    have he := congrArg ImgUrl.type (hu.symm.trans hu')
    exact he.trans ht
  case refine_2 =>
    have ⟨o', ho', hi⟩ := List.mem_flatMap.mp (mem_of_lastWritten hl)
    have hm : o' ∈ owners datatype objs := mem_owners.mpr ⟨ho', last, hi, ht⟩
    rw [ho, List.mem_singleton] at hm
    exact ⟨last, hm ▸ hi, ht, timestamp, hu⟩

-- All objects of a notification are in the queued messages as they should be exactly if none has an
-- image of its own type, or one has, and nothing of the others gets into its place.
theorem exact_iff_single [Zero F] (env : Gat1400Env F) (datatype : Gat1400Datatype)
    (objs : List Gat1400Obj) (malloc : Gat1400Malloc) (s : Gat1400 F) : ∃ msgs,
    (gat1400CaptureCallback env (some datatype) objs malloc s).pOutQueue = s.pOutQueue ++ msgs ∧
      (Exact env datatype objs (s.frameId + 1) msgs ↔ Single env datatype objs malloc s) := by
  have ⟨msgs, hq, hm⟩ := callback_spec env datatype objs malloc s
  refine ⟨msgs, hq, ?_⟩
  cases ho : owners datatype objs
  case nil =>
    refine iff_of_true ⟨[], _, .refl _, ?_, fun _ _ => ?_⟩ (.inl ho)
    · rw [ho]
      exact .nil
    · simp [ho]
  case cons o os =>
    have ⟨image, hi, hs⟩ := images_jsonParams env (s.frameId + 1)
      (show o ∈ owners datatype objs from ho ▸ List.mem_cons_self)
    constructor
    case mp =>
      rintro ⟨shown, rest, hp, hf, -⟩
      rw [ho] at hf
      have hlen := hp.length_eq
      rw [List.length_append, ← hf.length_eq, List.length_cons] at hlen
      rcases hm with ⟨hqd, rfl⟩ | ⟨-, rfl⟩
      case inr =>
        rw [List.flatMap_nil, List.length_nil] at hlen
        omega
      case inl =>
        rw [List.flatMap_singleton, hi, List.length_singleton] at hlen
        have hos : os = [] := List.eq_nil_of_length_eq_zero (by omega)
        have hrest : rest = [] := List.eq_nil_of_length_eq_zero (by omega)
        subst hos hrest
        rw [List.flatMap_singleton, hi, List.append_nil] at hp
        rw [← List.singleton_perm.mp hp] at hf
        have hsh := (List.forall₂_cons.mp hf).left
        exact .inr ⟨hqd, o, ho, (hs.shows_iff ho).mp hsh⟩
    case mpr =>
      intro h
      have ⟨hqd, o', ho', hc⟩ := h.resolve_left (by simp [ho])
      rcases hm with ⟨-, rfl⟩ | ⟨hn, -⟩
      case inr => exact absurd hqd hn
      case inl =>
        refine ⟨[image], [], ?_, ?_, nofun⟩
        · rw [List.flatMap_singleton, hi]
          exact .refl _
        · rw [ho']
          exact .cons ((hs.shows_iff ho').mpr hc) .nil

-- However many objects there are, a notification leads to one message, with one image of its
-- type.
theorem Exact.owners_length_le {msgs : List (OutJson F)}
    (h : Exact env datatype objs frameId msgs) :
    (owners datatype objs).length ≤ (msgs.flatMap (images datatype)).length := by
  obtain ⟨shown, rest, hp, hf, -⟩ := h
  rw [hp.length_eq, List.length_append, hf.length_eq]
  omega

section

def camera : Gat1400Env Rat where
  id := 5
  localIp := "192.168.0.10"
  httpPort := 8080
  date := "20250101"
  milli n := n / 1000
  mktime _ := 1735689600

def face (leftTopX rightBtmX : Int) : Gat1400Obj where
  leftTopX := leftTopX
  leftTopY := 0
  rightBtmX := rightBtmX
  rightBtmY := 1000
  shotTime := "20250101000000"
  subImageList := [⟨"11", "20250101000000", rightBtmX⟩]

-- Of two faces in one notification only the last one is in the message.
theorem not_exact_of_two :
    ¬∀ (env : Gat1400Env Rat) (datatype : Gat1400Datatype) (objs : List Gat1400Obj)
      (s : Gat1400 Rat), s.pOutQueue = [] → ∃ msgs,
      (gat1400CaptureCallback env (some datatype) objs {} s).pOutQueue = s.pOutQueue ++ msgs ∧
        Exact env datatype objs (s.frameId + 1) msgs := by
  intro h
  have ⟨msgs, hq, he⟩ := h camera .face [face 0 1000, face 2000 3000] {} rfl
  have hm : msgs = [makeJson (jsonParams camera 1 .face [face 0 1000, face 2000 3000])] :=
    (List.nil_append msgs ▸ hq).symm
  have hl := he.owners_length_le
  rw [hm] at hl
  exact absurd hl (by decide)

end

end

end Gat1400
