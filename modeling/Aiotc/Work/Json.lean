import Aiotc.Share.Json

-- work.cpp: the message that `makeJson` makes of what was collected for it.

-- What the url of an image is printed from. The arrays hold all that can be printed.
structure ImgUrl where
  localIp : CStr
  httpPort : Int
  date : CStr
  id : Int
  frameId : Int
  timestamp : Int
  type : CStr
  randnum : Int
  deriving DecidableEq

-- `F` is the type of the coordinates, which are floats.
structure Rectt (F : Type) where
  x : F
  y : F
  w : F
  h : F
  deriving DecidableEq

-- `none` is an empty url, as `memset` leaves it.
structure OutJsonParams (F : Type) where
  msgType : CStr := []
  id : Int := 0
  timestamp : Int := 0
  sceneUrl : Option ImgUrl := none
  faceUrl : Option ImgUrl := none
  faceRect : Rectt F
  personBodyUrl : Option ImgUrl := none
  personBodyRect : Rectt F
  plateNo : CStr := []
  plateColor : CStr := []
  plateUrl : Option ImgUrl := none
  plateRect : Rectt F
  vehBodyUrl : Option ImgUrl := none
  vehBodyRect : Rectt F

-- The members of the message, which is printed with their names.

structure OutImage (F : Type) where
  url : ImgUrl
  rect : Rectt F
  deriving DecidableEq

structure OutPlate (F : Type) extends OutImage F where
  plateNo : Option CStr
  color : Option CStr

structure OutPerson (F : Type) where
  face : Option (OutImage F)
  body : Option (OutImage F)

structure OutVeh (F : Type) where
  body : Option (OutImage F)
  plate : Option (OutPlate F)

structure OutJson (F : Type) where
  msgType : CStr
  id : Int
  timestamp : Int
  sceneImg : Option ImgUrl
  person : List (OutPerson F)
  veh : List (OutVeh F)

variable {F : Type}

def addImage (url : Option ImgUrl) (rect : Rectt F) : Option (OutImage F) :=
  url.map fun url => ⟨url, rect⟩

def addString (s : CStr) : Option CStr :=
  if s = [] then none else some s

def makeJson (p : OutJsonParams F) : OutJson F where
  msgType := p.msgType
  id := p.id
  timestamp := p.timestamp
  sceneImg := p.sceneUrl
  person :=
    if p.faceUrl.isSome ∨ p.personBodyUrl.isSome then
      [{ face := addImage p.faceUrl p.faceRect, body := addImage p.personBodyUrl p.personBodyRect }]
    else
      []
  veh :=
    if p.vehBodyUrl.isSome ∨ p.plateUrl.isSome then
      [{
        body := addImage p.vehBodyUrl p.vehBodyRect
        plate := (addImage p.plateUrl p.plateRect).map fun image =>
          { image with plateNo := addString p.plateNo, color := addString p.plateColor } }]
    else
      []

-- The images of a message are those that were collected.

theorem face_makeJson (p : OutJsonParams F) :
    (makeJson p).person.filterMap OutPerson.face = (addImage p.faceUrl p.faceRect).toList := by
  cases h : p.faceUrl <;> cases h' : p.personBodyUrl <;> simp [makeJson, addImage, h, h']

theorem personBody_makeJson (p : OutJsonParams F) :
    (makeJson p).person.filterMap OutPerson.body =
      (addImage p.personBodyUrl p.personBodyRect).toList := by
  cases h : p.faceUrl <;> cases h' : p.personBodyUrl <;> simp [makeJson, addImage, h, h']

theorem vehBody_makeJson (p : OutJsonParams F) :
    (makeJson p).veh.filterMap OutVeh.body = (addImage p.vehBodyUrl p.vehBodyRect).toList := by
  cases h : p.vehBodyUrl <;> cases h' : p.plateUrl <;> simp [makeJson, addImage, h, h']
