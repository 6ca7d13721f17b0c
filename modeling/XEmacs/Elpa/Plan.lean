import XEmacs.Elpa.Versions

/-! The planner of `elpa.el`: which packages an installation needs, at which versions and in which
order. An archive is read at most once in an installation, so that it has one index. A package
symbol is its name. `unfinished` is for a recursion that was not given depth enough. -/

namespace XEmacs.Elpa

abbrev Symbol := String

inductive Designator
  | symbol (name : Symbol)
  | string (name : String)
  | other
  deriving DecidableEq

inductive Version
  | string (s : String)
  | list (x : ℤ) (l : List ℤ)
  | other
  deriving DecidableEq

/-- A requirement: a name, and the lowest version, if there is one. -/
structure Dependency where
  name : Designator
  version : Option Version
  deriving DecidableEq

/-- An entry of an archive's index. The version is none when it is not a list. -/
structure Entry where
  name : Symbol
  version : Option (List ℤ)
  reqs : List Dependency
  deriving DecidableEq

structure Info where
  name : Symbol
  version : List ℤ
  reqs : List Dependency
  archive : String
  deriving DecidableEq

inductive Error
  | malformedName
  | malformedVersion
  | malformedEntry (name : Symbol)
  | archive (name : String)
  | notInstallable (name dependent : Symbol)
  | cycleConflict (name dependent : Symbol) (version : Option Version) (planned : List ℤ)
  | notAvailable (name dependent : Symbol) (version : Option Version) (archive : String)
      (found : List ℤ)
  | notInAnyArchive (name dependent : Symbol)
  | unfinished
  deriving DecidableEq

structure Environment where
  /-- the names in `elpa-archives` -/
  archives : List String
  /-- `elpa--consult-archive` -/
  consultArchive : String → Except Error (List Entry)
  /-- `elpa-installable-packages` -/
  installablePackages : List Symbol
  /-- `elpa--installed-builds`, the versions -/
  installedBuilds : Symbol → List (List ℤ)
  /-- `version-to-list` -/
  versionToList : String → Except Error (List ℤ)

/-- `elpa-core-provided-packages`. -/
def coreProvidedPackages : List Symbol := ["cl", "cl-extra", "cl-lib"]

/-- `elpa--package-symbol`. -/
def packageSymbol : Designator → Except Error Symbol
  | .symbol name => .ok name
  | .string name => .ok name
  | .other => .error .malformedName

/-- `elpa--entry-info`. -/
def entryInfo (entry : Entry) (archive : String) : Except Error Info :=
  match entry.version with
  | some version => .ok ⟨entry.name, version, entry.reqs, archive⟩
  | none => .error (.malformedEntry entry.name)

namespace Environment

variable (env : Environment)

/-- `elpa--version-list`. -/
def versionList : Version → Except Error (List ℤ)
  | .string s => env.versionToList s
  | .list x l => .ok (x :: l)
  | .other => .error .malformedVersion

/-- There is no floor, or it is not above the version `found`. -/
def atLeast (version : Option Version) (found : List ℤ) : Except Error Bool :=
  match version with
  | none => .ok true
  | some version => (versionListLe · found) <$> env.versionList version

/-- `elpa--newest-installed-build`. -/
def newestInstalledBuild (name : Symbol) : Option (List ℤ) :=
  (env.installedBuilds name).foldl (fun newest build =>
    match newest with
    | none => some build
    | some newest => if versionListLt newest build then some build else some newest) none

/-- `elpa--installed-at-least`. -/
def installedAtLeast (name : Symbol) (version : Option Version) : Except Error Bool :=
  match env.newestInstalledBuild name with
  | none => .ok false
  | some build => env.atLeast version build

/-- `elpa--resolve-dependency`, the loop over the archives: what is found, and the first entry. -/
def searchArchives (name : Symbol) (wanted : Option (List ℤ)) :
    List String → Option Info → Except Error (Option Info × Option Info)
  | [], first => .ok (none, first)
  | archive :: archives, first => do
    let entries ← env.consultArchive archive
    match entries.find? fun entry => entry.name = name with
    | none => searchArchives name wanted archives first
    | some entry =>
      let info ← entryInfo entry archive
      let first := some (first.getD info)
      match wanted with
      | none => return (some info, first)
      | some wanted' =>
        if versionListLe wanted' info.version then return (some info, first)
        else searchArchives name wanted archives first

/-- `elpa--resolve-dependency`. -/
def resolveDependency (name : Symbol) (version : Option Version) (dependent : Symbol) :
    Except Error Info := do
  let wanted ← version.mapM env.versionList
  match ← env.searchArchives name wanted env.archives none with
  | (some found, _) => return found
  | (none, some first) =>
    throw (.notAvailable name dependent version first.archive first.version)
  | (none, none) => throw (.notInAnyArchive name dependent)

end Environment

/-- `elpa--plan-nodes`, where a node is the info that is selected for a name, `elpa--plan-order`,
and what is told the user. -/
structure State where
  nodes : List (Symbol × Info)
  order : List Symbol
  /-- `elpa--install-emacs-requirements` -/
  emacsRequirements : List (Symbol × Option Version)
  /-- the cycles that were warned about: name, dependent and planned version -/
  cycles : List (Symbol × Symbol × List ℤ)
  deriving DecidableEq

namespace State

/-- No plan yet. -/
def init : State := ⟨[], [], [], []⟩

/-- `assq` on the nodes. -/
def node (s : State) (name : Symbol) : Option Info :=
  (s.nodes.find? fun n => n.1 = name).map Prod.snd

def enter (s : State) (info : Info) : State :=
  { s with nodes := (info.name, info) :: s.nodes }

def raise (s : State) (name : Symbol) (info : Info) : State :=
  { s with
    nodes := s.nodes.map fun n => if n.1 = name then (n.1, info) else n
    order := s.order.erase name }

def place (s : State) (name : Symbol) : State :=
  { s with order := s.order ++ [name] }

/-- `elpa--plan-emacs-requirement`. -/
def planEmacsRequirement (s : State) (version : Option Version) (dependent : Symbol) : State :=
  { s with emacsRequirements := (dependent, version) :: s.emacsRequirements }

end State

/-- How requirements are planned, on a path. -/
abbrev Planner := List Symbol → Dependency → Symbol → State → Except Error State

/-- The requirements of a package, planned one after the other. -/
def requireAll (require : Planner) (path : List Symbol) (dependent : Symbol) :
    List Dependency → State → Except Error State
  | [], s => .ok s
  | dependency :: dependencies, s => do
    let s ← require path dependency dependent s
    requireAll require path dependent dependencies s

/-- `elpa--plan-package`. -/
def planPackage (require : Planner) (path : List Symbol) (info : Info) (s : State) :
    Except Error State := do
  let s ← requireAll require (info.name :: path) info.name info.reqs (s.enter info)
  return s.place info.name

/-- `elpa--replan-package`. -/
def replanPackage (require : Planner) (path : List Symbol) (name : Symbol) (info : Info) (s : State) :
    Except Error State := do
  let s ← requireAll require (name :: path) name info.reqs (s.raise name info)
  return s.place name

/-- `elpa--require-dependency`. -/
def requireDependency (env : Environment) : ℕ → Planner
  | 0, _, _, _, _ => .error .unfinished
  | fuel + 1, path, dependency, dependent, s => do
    let name ← packageSymbol dependency.name
    let version := dependency.version
    if name = "emacs" then return s.planEmacsRequirement version dependent
    else if name ∈ coreProvidedPackages then return s
    else if name ∉ env.installablePackages then throw (.notInstallable name dependent)
    else if ← env.installedAtLeast name version then return s
    else if name ∈ path then
      let planned := (s.node name).elim [] (·.version)
      if ← env.atLeast version planned then
        return { s with cycles := (name, dependent, planned) :: s.cycles }
      else throw (.cycleConflict name dependent version planned)
    else
      match s.node name with
      | some node =>
        if ← env.atLeast version node.version then return s
        else
          let info ← env.resolveDependency name version dependent
          replanPackage (requireDependency env fuel) path name info s
      | none =>
        let info ← env.resolveDependency name version dependent
        planPackage (requireDependency env fuel) path info s

def plan (env : Environment) (fuel : ℕ) (info : Info) : Except Error State :=
  planPackage (requireDependency env fuel) [] info State.init

end XEmacs.Elpa
