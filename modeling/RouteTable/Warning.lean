import RouteTable.Text

namespace RouteTable

inductive Warning where
  | emptyRoute (file : Text)
  | nameCollision (file name : Text)
  | reservedMixinField (file mixin field : Text)
deriving DecidableEq, Repr

namespace Warning

def file : Warning → Text
  | emptyRoute file => file
  | nameCollision file _ => file
  | reservedMixinField file _ _ => file

def message : Warning → Text
  | emptyRoute file =>
    file ++ ": no route segments left after stripping the pages directory, skipped".toList
  | nameCollision file name =>
    file ++ ": route name `".toList ++ name ++
      "` already exists among its siblings, nested under it".toList
  | reservedMixinField file mixin field =>
    file ++ ": mixin `".toList ++ mixin ++ "` sets reserved field `".toList ++ field ++
      "`, ignored".toList

end Warning

end RouteTable
