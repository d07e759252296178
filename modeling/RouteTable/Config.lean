import RouteTable.Compilation

namespace RouteTable

structure Routing where
  pagesDir : Text
  extension : Text
  outputDir : Option Text
  outputFile : Text
deriving DecidableEq, Repr

structure Config where
  routing : Routing
  mixins : MixinSet

def Routing.defaults : Routing :=
  ⟨"pages".toList, CompileOptions.defaultExtension, none, "routes.js".toList⟩

namespace Config

def defaults : Config := ⟨Routing.defaults, []⟩

def pagesDir (config : Config) : Text := config.routing.pagesDir

def outputDir (config : Config) : Text :=
  config.routing.outputDir.getD (Path.parentOrEmpty config.pagesDir)

def outputPath (config : Config) : Text := Path.push config.outputDir config.routing.outputFile

def compileOptions (config : Config) : CompileOptions :=
  ⟨config.pagesDir, config.outputDir, config.routing.extension, config.mixins⟩

def isDefault (config : Config) : Bool :=
  config.routing == Routing.defaults && config.mixins.isEmpty

end Config

end RouteTable
