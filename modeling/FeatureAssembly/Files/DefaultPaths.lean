import FeatureAssembly.Files.Path

/-!
# Default paths

Where files are looked for that nobody names: the home directory of the user, the cache
below it, and the repository in the cache.
-/

namespace FeatureAssembly

/-- **The variables of the environment that matter**; a variable may be unset. -/
structure Environment where
  home : Option String
  cacheHome : Option String
  repository : Option String
deriving DecidableEq, Inhabited

namespace Environment

/-- The name of the directory below the cache. -/
def cacheName : String := "fab"

/-- The home directory. -/
def homeDir (e : Environment) : String := e.home.getD "."

/-- The directory for cached files. -/
def cacheDir (e : Environment) : String :=
  Path.join (e.cacheHome.getD (Path.join e.homeDir ".cache")) cacheName

/-- The directory of the repository. One that is named wins, unless the name is empty. -/
def repositoryDir (e : Environment) : String :=
  match e.repository with
  | some dir => if dir = "" then Path.join e.cacheDir "repository" else dir
  | none => Path.join e.cacheDir "repository"

end Environment

end FeatureAssembly
