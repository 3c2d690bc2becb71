import Aiotc.Share.Json

-- db.cpp over the collections of MongoDB, as far as the master uses them. All calls of the driver
-- succeed.

-- The `int` or the string by which documents are selected, or to which a field is set.
inductive DbVal
  | int (n : Int)
  | str (s : CStr)

namespace DbVal

def eq : DbVal → CJson → Bool
  | int n, .number m => n = m
  | str s, .string t => s = t
  | _, _             => false

def toJson : DbVal → CJson
  | int n => .number n
  | str s => .string s

end DbVal

namespace Bson

-- Unlike those of cJSON, names are compared as they are. An array of documents has the fields of
-- all of them.
def field (name : CStr) : CJson → List CJson
  | .object child => member child
  | .array child  => child.flatMap fun
    | .object child => member child
    | _             => []
  | _             => []
where
  member (child : List (CStr × CJson)) : List CJson :=
    (child.find? (·.1 = name)).toList.map Prod.snd

-- `names` is the dotted path to a field.
def fields (names : List CStr) (doc : CJson) : List CJson :=
  names.foldl (fun js name => js.flatMap (field name)) [doc]

-- An array matches a value that is one of its items.
def selects (selectName : List CStr) (val : DbVal) (doc : CJson) : Bool :=
  (fields selectName doc).any fun
    | .array child => child.any val.eq
    | j            => val.eq j

-- The update operators. `none` is an operator that does not apply to the field it finds.
inductive Cmd
  | set
  | push
  | pull

def Cmd.apply (val : DbVal) : Cmd → Option CJson → Option CJson
  | set, _                    => some val.toJson
  | push, none                => some (.array [val.toJson])
  | push, some (.array child) => some (.array (child ++ [val.toJson]))
  | pull, some (.array child) => some (.array (child.filter fun j => !val.eq j))
  | _, _                      => none

def setMember (name : CStr) (j : CJson) : List (CStr × CJson) → List (CStr × CJson)
  | []                 => [(name, j)]
  | (n, j') :: members =>
    if n = name then (n, j) :: members else (n, j') :: setMember name j members

-- Documents that are missing on the way to the field are created.
def update (cmd : Cmd) (val : DbVal) : List CStr → Option CJson → Option CJson
  | [], j            => cmd.apply val j
  | name :: names, j =>
    match j.getD (.object []) with
    | .object child => do
      let j ← update cmd val names ((child.find? (·.1 = name)).map Prod.snd)
      return .object (setMember name j child)
    | _             => none

end Bson

-- A collection lists its documents in the order they were inserted. The `_id` of a document is
-- left out.
abbrev Collection := List CJson

def checkDel (selectName : List CStr) (val : DbVal) (table : Collection) : Collection :=
  table.eraseP (Bson.selects selectName val)

-- As called, with the text as the member "original" of the document. A text that is not JSON is
-- not inserted.
def dbWrite (json : Text) (selectName : List CStr) (val : DbVal) (table : Collection) :
    Collection :=
  let table := checkDel selectName val table
  match json with
  | some j => table ++ [.object [("original", j)]]
  | none   => table

def dbDel (selectName : List CStr) (val : DbVal) (table : Collection) : Collection :=
  checkDel selectName val table

def dbExsit (selectName : List CStr) (val : DbVal) (table : Collection) : Bool :=
  table.any (Bson.selects selectName val)

def dbUpdate (cmd : Bson.Cmd) (selectName : List CStr) (sel : DbVal) (updateName : List CStr)
    (upd : DbVal) : Collection → Collection
  | []           => []
  | doc :: table =>
    if Bson.selects selectName sel doc then
      (Bson.update cmd upd updateName (some doc)).getD doc :: table
    else
      doc :: dbUpdate cmd selectName sel updateName upd table

def dbUpdateIntById (buf : Text) (name : List CStr) (val : Int) (table : Collection) :
    Collection :=
  let id := getIntValFromJson buf ["id"]
  if id < 0 then table else dbUpdate .set ["original", "id"] (.int id) name (.int val) table

structure DbParams where
  systemInit : Collection := []
  slave : Collection := []
  obj : Collection := []
