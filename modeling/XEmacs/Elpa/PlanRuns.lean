import Mathlib.Data.List.Nodup
import XEmacs.Elpa.Plan
import XEmacs.Lib.Failure

/-! What a run of the planner does: it skips requirements that are met, plans packages that are
not in the plan, and raises those that are too old. A run may be asked to meet a condition
whenever it plans or raises a package. -/

namespace XEmacs.Elpa

open Lib

namespace State

variable {s : State} {name other : Symbol} {info : Info}

theorem node_of_nodes {s' : State} (h : s'.nodes = s.nodes) : s'.node = s.node := by
  funext name
  rw [node, node, h]

@[simp] theorem node_enter_self : (s.enter info).node info.name = some info := by
  simp [node, enter]

@[simp] theorem node_enter_of_ne (h : other ≠ info.name) : (s.enter info).node other = s.node other := by
  simp [node, enter, h.symm]

@[simp] theorem node_place : (s.place name).node = s.node := rfl

@[simp] theorem node_init : init.node name = none := rfl

theorem find?_raise (nodes : List (Symbol × Info)) (name other : Symbol) (info : Info) :
    ((nodes.map fun n => if n.1 = name then (n.1, info) else n).find? fun n => n.1 = other) =
      (nodes.find? fun n => n.1 = other).map fun n => if n.1 = name then (n.1, info) else n := by
  rw [List.find?_map]
  congr 2
  funext n
  simp only [Function.comp_apply]
  split <;> rfl

theorem node_raise_self {old : Info} (h : s.node name = some old) :
    (s.raise name info).node name = some info := by
  obtain ⟨n, hn, -⟩ := Option.map_eq_some_iff.mp h
  have hname : n.1 = name := by simpa using List.find?_some hn
  rw [node, raise, find?_raise, hn]
  simp [hname]

theorem node_raise_of_ne (h : other ≠ name) : (s.raise name info).node other = s.node other := by
  rw [node, raise, find?_raise, Option.map_map, node]
  apply Option.map_congr
  intro n hn
  have hother : n.1 = other := by simpa using List.find?_some hn
  simp [hother, h]

end State

inductive Event
  /-- `elpa--plan-package` is called -/
  | plan (s : State) (info : Info)
  /-- `elpa--replan-package` is called on a node -/
  | replan (s : State) (node info : Info)

/-- A package that has to be installed, planned or on the path. -/
structure Wanted (env : Environment) (name : Symbol) : Prop where
  notEmacs : name ≠ "emacs"
  notCore : name ∉ coreProvidedPackages
  allowed : name ∈ env.installablePackages

structure Missing (env : Environment) (path : List Symbol) (name : Symbol) (version : Option Version) :
    Prop extends Wanted env name where
  notInstalled : env.installedAtLeast name version = .ok false
  notOnPath : name ∉ path

/-- The requirement is skipped, and leaves the state as it is but for what the user is told. -/
inductive Skips (env : Environment) (path : List Symbol) (dependent : Symbol) (s : State)
    (name : Symbol) (version : Option Version) : State → Prop
  | emacs (h : name = "emacs") :
      Skips env path dependent s name version (s.planEmacsRequirement version dependent)
  | core (hemacs : name ≠ "emacs") (h : name ∈ coreProvidedPackages) :
      Skips env path dependent s name version s
  | installed (hwanted : Wanted env name) (h : env.installedAtLeast name version = .ok true) :
      Skips env path dependent s name version s
  | cycle {planned : List ℤ} (hwanted : Wanted env name)
      (hinstalled : env.installedAtLeast name version = .ok false) (hpath : name ∈ path)
      (hplanned : (s.node name).elim [] (·.version) = planned)
      (h : env.atLeast version planned = .ok true) :
      Skips env path dependent s name version
        { s with cycles := (name, dependent, planned) :: s.cycles }
  | planned {node : Info} (hmissing : Missing env path name version) (hnode : s.node name = some node)
      (h : env.atLeast version node.version = .ok true) :
      Skips env path dependent s name version s

/-- `Requires env ok path dependent deps s s'`: the requirements `deps` of the first package of the
path are planned, and lead from `s` to `s'`; whatever is planned or raised meets `ok`. -/
inductive Requires (env : Environment) (ok : Event → Prop) :
    List Symbol → Symbol → List Dependency → State → State → Prop
  | nil {path : List Symbol} {dependent : Symbol} {s : State} : Requires env ok path dependent [] s s
  | skip {path : List Symbol} {dependent name : Symbol} {dep : Dependency} {deps : List Dependency}
      {s s₁ s₂ : State} (hname : packageSymbol dep.name = .ok name)
      (hskips : Skips env path dependent s name dep.version s₁)
      (hrest : Requires env ok path dependent deps s₁ s₂) :
      Requires env ok path dependent (dep :: deps) s s₂
  | plan {path : List Symbol} {dependent name : Symbol} {dep : Dependency} {deps : List Dependency}
      {info : Info} {s s₁ s₂ : State} (hname : packageSymbol dep.name = .ok name)
      (hmissing : Missing env path name dep.version) (hnode : s.node name = none)
      (hresolve : env.resolveDependency name dep.version dependent = .ok info)
      (hok : ok (.plan s info))
      (hreqs : Requires env ok (info.name :: path) info.name info.reqs (s.enter info) s₁)
      (hrest : Requires env ok path dependent deps (s₁.place info.name) s₂) :
      Requires env ok path dependent (dep :: deps) s s₂
  | replan {path : List Symbol} {dependent name : Symbol} {dep : Dependency} {deps : List Dependency}
      {node info : Info} {s s₁ s₂ : State} (hname : packageSymbol dep.name = .ok name)
      (hmissing : Missing env path name dep.version) (hnode : s.node name = some node)
      (hfloor : env.atLeast dep.version node.version = .ok false)
      (hresolve : env.resolveDependency name dep.version dependent = .ok info)
      (hok : ok (.replan s node info))
      (hreqs : Requires env ok (name :: path) name info.reqs (s.raise name info) s₁)
      (hrest : Requires env ok path dependent deps (s₁.place name) s₂) :
      Requires env ok path dependent (dep :: deps) s s₂

inductive Plans (env : Environment) (ok : Event → Prop) (info : Info) : State → Prop
  | intro {s : State} (hok : ok (.plan .init info))
      (hreqs : Requires env ok [info.name] info.name info.reqs (State.init.enter info) s) :
      Plans env ok info (s.place info.name)

def anyEvent (_ : Event) : Prop := True

theorem requireDependency_cases {env : Environment} {fuel : ℕ} {path : List Symbol} {dependent : Symbol}
    {dep : Dependency} {s s' : State} (h : requireDependency env (fuel + 1) path dep dependent s = .ok s') :
    ∃ name, packageSymbol dep.name = .ok name ∧
      (Skips env path dependent s name dep.version s' ∨
      Missing env path name dep.version ∧
        ∃ info, env.resolveDependency name dep.version dependent = .ok info ∧
          ((s.node name = none ∧ planPackage (requireDependency env fuel) path info s = .ok s') ∨
          ∃ node, s.node name = some node ∧ env.atLeast dep.version node.version = .ok false ∧
            replanPackage (requireDependency env fuel) path name info s = .ok s')) := by
  rw [requireDependency] at h
  obtain ⟨name, hname, h⟩ := exists_of_bind_eq_ok h
  refine ⟨name, hname, ?_⟩
  split at h
  case isTrue hemacs =>
    obtain rfl := Except.ok.inj h
    exact Or.inl (.emacs hemacs)
  case isFalse hemacs =>
    split at h
    case isTrue hcore =>
      obtain rfl := Except.ok.inj h
      exact Or.inl (.core hemacs hcore)
    case isFalse hcore =>
      split at h
      case isTrue => exact absurd h (by simp [throw, throwThe, MonadExceptOf.throw])
      case isFalse hallowed =>
        have hwanted : Wanted env name := ⟨hemacs, hcore, not_not.mp hallowed⟩
        obtain ⟨installed, hinstalled, h⟩ := exists_of_bind_eq_ok h
        cases installed with
        | true =>
          obtain rfl := Except.ok.inj h
          exact Or.inl (.installed hwanted hinstalled)
        | false =>
          rw [if_neg Bool.false_ne_true] at h
          split at h
          case isTrue hpath =>
            obtain ⟨enough, hfloor, h⟩ := exists_of_bind_eq_ok h
            cases enough with
            | true =>
              obtain rfl := Except.ok.inj h
              exact Or.inl (.cycle hwanted hinstalled hpath rfl hfloor)
            | false => exact absurd h (by simp [throw, throwThe, MonadExceptOf.throw])
          case isFalse hpath =>
            have hmissing : Missing env path name dep.version := ⟨hwanted, hinstalled, hpath⟩
            split at h
            case h_1 node hnode =>
              obtain ⟨enough, hfloor, h⟩ := exists_of_bind_eq_ok h
              cases enough with
              | true =>
                obtain rfl := Except.ok.inj h
                exact Or.inl (.planned hmissing hnode hfloor)
              | false =>
                obtain ⟨info, hresolve, h⟩ := exists_of_bind_eq_ok h
                exact Or.inr ⟨hmissing, info, hresolve, Or.inr ⟨node, hnode, hfloor, h⟩⟩
            case h_2 hnode =>
              obtain ⟨info, hresolve, h⟩ := exists_of_bind_eq_ok h
              exact Or.inr ⟨hmissing, info, hresolve, Or.inl ⟨hnode, h⟩⟩

theorem requires_of_requireAll {env : Environment} {fuel : ℕ} {path : List Symbol} {dependent : Symbol}
    {deps : List Dependency} {s s' : State}
    (h : requireAll (requireDependency env fuel) path dependent deps s = .ok s') :
    Requires env anyEvent path dependent deps s s' := by
  induction fuel generalizing path dependent deps s s' with
  | zero =>
    cases deps with
    | nil =>
      obtain rfl := Except.ok.inj h
      exact .nil
    | cons dep deps =>
      obtain ⟨_, hfirst, -⟩ := exists_of_bind_eq_ok h
      exact absurd hfirst (by simp [requireDependency])
  | succ fuel ih =>
    induction deps generalizing s with
    | nil =>
      obtain rfl := Except.ok.inj h
      exact .nil
    | cons dep deps ihdeps =>
      obtain ⟨s₁, hfirst, hrest⟩ := exists_of_bind_eq_ok h
      have hrest := ihdeps hrest
      obtain ⟨name, hname, hskips | ⟨hmissing, info, hresolve, hcase⟩⟩ :=
        requireDependency_cases hfirst
      · exact .skip hname hskips hrest
      · rcases hcase with ⟨hnode, hplan⟩ | ⟨node, hnode, hfloor, hreplan⟩
        · obtain ⟨s₂, hreqs, hplace⟩ := exists_of_bind_eq_ok hplan
          obtain rfl := Except.ok.inj hplace
          exact .plan hname hmissing hnode hresolve trivial (ih hreqs) hrest
        · obtain ⟨s₂, hreqs, hplace⟩ := exists_of_bind_eq_ok hreplan
          obtain rfl := Except.ok.inj hplace
          exact .replan hname hmissing hnode hfloor hresolve trivial (ih hreqs) hrest

section

variable {env : Environment} {path : List Symbol} {dependent name : Symbol} {dep : Dependency}
  {s s' : State} {info node : Info}

theorem Skips.nodes_order (h : Skips env path dependent s name dep.version s') :
    s'.nodes = s.nodes ∧ s'.order = s.order := by
  cases h <;> exact ⟨rfl, rfl⟩

theorem requireDependency_of_skips (hname : packageSymbol dep.name = .ok name)
    (h : Skips env path dependent s name dep.version s') (fuel : ℕ) :
    requireDependency env (fuel + 1) path dep dependent s = .ok s' := by
  rw [requireDependency, hname]
  show (if name = "emacs" then _ else _) = _
  cases h with
  | emacs h => exact if_pos h
  | core hemacs h =>
    rw [if_neg hemacs, if_pos h]
    rfl
  | installed hw h =>
    rw [if_neg hw.notEmacs, if_neg hw.notCore, if_neg (not_not.mpr hw.allowed), h]
    rfl
  | cycle hw hinstalled hpath hplanned h =>
    rw [if_neg hw.notEmacs, if_neg hw.notCore, if_neg (not_not.mpr hw.allowed), hinstalled]
    show (if name ∈ path then _ else _) = _
    rw [if_pos hpath]
    simp only [hplanned, h]
    rfl
  | planned hm hnode h =>
    rw [if_neg hm.notEmacs, if_neg hm.notCore, if_neg (not_not.mpr hm.allowed), hm.notInstalled]
    show (if name ∈ path then _ else _) = _
    rw [if_neg hm.notOnPath, hnode]
    simp only [h]
    rfl

theorem requireDependency_of_plan (hname : packageSymbol dep.name = .ok name)
    (hm : Missing env path name dep.version) (hnode : s.node name = none)
    (hresolve : env.resolveDependency name dep.version dependent = .ok info) (fuel : ℕ) :
    requireDependency env (fuel + 1) path dep dependent s =
      planPackage (requireDependency env fuel) path info s := by
  rw [requireDependency, hname]
  show (if name = "emacs" then _ else _) = _
  rw [if_neg hm.notEmacs, if_neg hm.notCore, if_neg (not_not.mpr hm.allowed), hm.notInstalled]
  show (if name ∈ path then _ else _) = _
  rw [if_neg hm.notOnPath, hnode]
  simp only [hresolve]
  rfl

theorem requireDependency_of_replan (hname : packageSymbol dep.name = .ok name)
    (hm : Missing env path name dep.version) (hnode : s.node name = some node)
    (hfloor : env.atLeast dep.version node.version = .ok false)
    (hresolve : env.resolveDependency name dep.version dependent = .ok info) (fuel : ℕ) :
    requireDependency env (fuel + 1) path dep dependent s =
      replanPackage (requireDependency env fuel) path name info s := by
  rw [requireDependency, hname]
  show (if name = "emacs" then _ else _) = _
  rw [if_neg hm.notEmacs, if_neg hm.notCore, if_neg (not_not.mpr hm.allowed), hm.notInstalled]
  show (if name ∈ path then _ else _) = _
  rw [if_neg hm.notOnPath, hnode]
  simp only [hfloor, hresolve]
  rfl

end

theorem Requires.exists_fuel {env : Environment} {ok : Event → Prop} {path : List Symbol}
    {dependent : Symbol} {deps : List Dependency} {s s' : State}
    (h : Requires env ok path dependent deps s s') :
    ∃ n, ∀ fuel, n ≤ fuel →
      requireAll (requireDependency env fuel) path dependent deps s = .ok s' := by
  induction h with
  | nil => exact ⟨0, fun _ _ => rfl⟩
  | skip hname hskips _ ih =>
    obtain ⟨n, hn⟩ := ih
    refine ⟨n + 1, fun fuel hfuel => ?_⟩
    obtain ⟨fuel, rfl⟩ := Nat.exists_eq_add_of_le' (Nat.le_of_add_left_le hfuel)
    rw [requireAll, requireDependency_of_skips hname hskips]
    exact hn _ (Nat.le_of_succ_le hfuel)
  | plan hname hmissing hnode hresolve _ _ _ ihreqs ihrest =>
    obtain ⟨n, hn⟩ := ihreqs
    obtain ⟨k, hk⟩ := ihrest
    refine ⟨n + k + 1, fun fuel hfuel => ?_⟩
    obtain ⟨fuel, rfl⟩ := Nat.exists_eq_add_of_le' (Nat.le_of_add_left_le hfuel)
    rw [requireAll, requireDependency_of_plan hname hmissing hnode hresolve, planPackage,
      hn fuel (by omega)]
    exact hk _ (by omega)
  | replan hname hmissing hnode hfloor hresolve _ _ _ ihreqs ihrest =>
    obtain ⟨n, hn⟩ := ihreqs
    obtain ⟨k, hk⟩ := ihrest
    refine ⟨n + k + 1, fun fuel hfuel => ?_⟩
    obtain ⟨fuel, rfl⟩ := Nat.exists_eq_add_of_le' (Nat.le_of_add_left_le hfuel)
    rw [requireAll, requireDependency_of_replan hname hmissing hnode hfloor hresolve, replanPackage,
      hn fuel (by omega)]
    exact hk _ (by omega)

theorem Plans.exists_fuel {env : Environment} {ok : Event → Prop} {info : Info} {s : State}
    (h : Plans env ok info s) : ∃ fuel, plan env fuel info = .ok s := by
  cases h with
  | intro _ hreqs =>
    obtain ⟨n, hn⟩ := hreqs.exists_fuel
    refine ⟨n, ?_⟩
    rw [plan, planPackage, hn n le_rfl]
    rfl

theorem plans_of_plan {env : Environment} {fuel : ℕ} {info : Info} {s : State}
    (h : plan env fuel info = .ok s) : Plans env anyEvent info s := by
  obtain ⟨s₁, hreqs, hplace⟩ := exists_of_bind_eq_ok h
  obtain rfl := Except.ok.inj hplace
  exact .intro trivial (requires_of_requireAll hreqs)

theorem searchArchives_found {env : Environment} {name : Symbol} {wanted : Option (List ℤ)}
    {archives : List String} {first first' : Option Info} {info : Info}
    (h : env.searchArchives name wanted archives first = .ok (some info, first')) :
    info.name = name ∧ ∀ version, wanted = some version → versionListLe version info.version = true := by
  induction archives generalizing first with
  | nil => exact absurd (Prod.mk.inj (Except.ok.inj h)).1 (Option.some_ne_none info).symm
  | cons archive archives ih =>
    rw [Environment.searchArchives] at h
    obtain ⟨entries, -, h⟩ := exists_of_bind_eq_ok h
    split at h
    case h_1 => exact ih h
    case h_2 entry hentry =>
      have hname : entry.name = name := by simpa using List.find?_some hentry
      obtain ⟨found, hfound, h⟩ := exists_of_bind_eq_ok h
      have hfoundName : found.name = entry.name := by
        rw [entryInfo] at hfound
        split at hfound
        case h_1 => rw [← Except.ok.inj hfound]
        case h_2 => exact absurd hfound (by simp)
      split at h
      case h_1 =>
        obtain ⟨hinfo, -⟩ := Prod.mk.inj (Except.ok.inj h)
        rw [← Option.some_inj.mp hinfo]
        exact ⟨hfoundName.trans hname, fun _ hnone => absurd hnone (Option.some_ne_none _).symm⟩
      case h_2 version =>
        split at h
        case isTrue hle =>
          obtain ⟨hinfo, -⟩ := Prod.mk.inj (Except.ok.inj h)
          rw [← Option.some_inj.mp hinfo]
          exact ⟨hfoundName.trans hname, fun _ hversion => Option.some_inj.mp hversion ▸ hle⟩
        case isFalse => exact ih h

theorem resolveDependency_eq {env : Environment} {name : Symbol} {version : Option Version}
    {dependent : Symbol} {info : Info} (h : env.resolveDependency name version dependent = .ok info) :
    info.name = name ∧ env.atLeast version info.version = .ok true := by
  rw [Environment.resolveDependency] at h
  obtain ⟨wanted, hwanted, h⟩ := exists_of_bind_eq_ok h
  obtain ⟨⟨found, first⟩, hsearch, h⟩ := exists_of_bind_eq_ok h
  cases found with
  | none => cases first <;> exact absurd h (by simp [throw, throwThe, MonadExceptOf.throw])
  | some found =>
    obtain rfl := Except.ok.inj h
    obtain ⟨hname, hle⟩ := searchArchives_found hsearch
    refine ⟨hname, ?_⟩
    cases version with
    | none => rfl
    | some version =>
      rw [Option.mapM_some] at hwanted
      obtain ⟨list, hlist, hsome⟩ := exists_of_bind_eq_ok hwanted
      rw [Environment.atLeast, hlist]
      exact congrArg Except.ok (hle list (Except.ok.inj hsome).symm)

end XEmacs.Elpa
