import RouteTable.Draft
import RouteTable.Route.Normal

namespace RouteTable

structure CompileOptions where
  pagesDir : Text
  /-- The directory of the written table, from which components are referred to. -/
  outputDir : Text
  extension : Text
  mixins : MixinSet

structure Compilation where
  routes : Forest Route
  warnings : List Warning

namespace CompileOptions

def defaultExtension : Text := "vue".toList

def forPages (pagesDir : Text) : CompileOptions :=
  ⟨pagesDir, Path.parentOrEmpty pagesDir, defaultExtension, []⟩

def roleOf (options : CompileOptions) (file : Text) : FileRole :=
  FileRole.of file options.pagesDir options.outputDir options.extension

end CompileOptions

namespace Page

/-- Fewer keys first, so that a page is there before what is in the folder of its name; then by the keys, then by the
file. -/
def order : Page → Page → Ordering :=
  compareLex (Order.on Order.nat fun p => p.keys.length)
    (compareLex (Order.on Order.texts keys) (Order.on Order.text source))

instance : Std.TransCmp order := inferInstanceAs (Std.TransCmp (compareLex _ _))

def dropRepeats (last : Option Text) : List Page → List Page
  | [] => []
  | page :: pages =>
    if last = some page.source then dropRepeats last pages
    else page :: dropRepeats (some page.source) pages

end Page

namespace Compilation

def pagesOf (options : CompileOptions) (files : List Text) : List Page :=
  files.filterMap fun file =>
    match options.roleOf file with
    | .page page => some page
    | _ => none

def emptyRoutes (options : CompileOptions) (files : List Text) : List Warning :=
  files.filterMap fun file =>
    match options.roleOf file with
    | .empty => some (.emptyRoute file)
    | _ => none

def inOrder (pages : List Page) : List Page :=
  Page.dropRepeats none (pages.mergeSort fun a b => (Page.order a b).isLE)

def routeCount (compilation : Compilation) : Nat := compilation.routes.size

end Compilation

def compile (options : CompileOptions) (files : List Text) : Compilation :=
  let pages := Compilation.inOrder (Compilation.pagesOf options files)
  let draft := Draft.empty.insertAll options.mixins pages
  { routes := draft.routes.normalize false
    warnings := Compilation.emptyRoutes options files ++ draft.warnings }

end RouteTable
