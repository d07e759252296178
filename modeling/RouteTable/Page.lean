import RouteTable.Path.Clean

namespace RouteTable

structure Page where
  source : Text
  keys : List Text
  component : Text
deriving DecidableEq, Repr

inductive FileRole where
  | page (page : Page)
  | deleted
  | empty
deriving DecidableEq, Repr

namespace Page

/-- What follows the root on a segment boundary; a path that is not under it is taken whole. -/
def belowRoot (root path : Text) : Text :=
  if root.isEmpty then path
  else match Text.afterFront? root path with
    | some rest =>
      if rest.isEmpty || Text.startsWith '/' rest || Text.endsWith '/' root then rest else path
    | none => path

/-- Leading dots of the extension do not count, and an empty extension takes nothing away. -/
def withoutExtension (extension path : Text) : Text :=
  let extension := Text.dropLeading '.' extension
  if extension.isEmpty then path
  else (Text.beforeBack? ('.' :: extension) path).getD path

def keysOf (file pagesDir extension : Text) : List Text :=
  Text.parts Path.isSlash
    (withoutExtension extension (belowRoot (Path.clean pagesDir) (Path.clean file)))

def isDeleted (keys : List Text) : Bool := keys.any (Text.startsWith '!')

end Page

def FileRole.of (file pagesDir outputDir extension : Text) : FileRole :=
  let keys := Page.keysOf file pagesDir extension
  if Page.isDeleted keys then .deleted
  else if keys.isEmpty then .empty
  else .page ⟨file, keys, Path.reference (Path.clean file) outputDir⟩

end RouteTable
