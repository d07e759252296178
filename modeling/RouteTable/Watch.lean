import RouteTable.Path

namespace RouteTable

inductive ChangeKind where
  | create
  | remove
  | rename
  | other
deriving DecidableEq, Repr

namespace ChangeKind

def isPage (extension path : Text) : Bool :=
  Path.extension? path == some (Text.dropLeading '.' extension)

/-- The first path of the change that concerns pages: one that appears or goes counts by its extension; a renaming
always counts, since a renamed folder moves every page in it. -/
def pageChange? (kind : ChangeKind) (paths : List Text) (extension : Text) : Option Text :=
  match kind with
  | create => paths.find? (isPage extension)
  | remove => paths.find? (isPage extension)
  | rename => paths.head?
  | other => none

end ChangeKind

structure Event where
  kind : ChangeKind
  paths : List Text

def Event.page? (extension : Text) (event : Event) : Option Text := event.kind.pageChange? event.paths extension

end RouteTable
