import Mathlib.Data.List.Chain
import XEmacs.Elpa.PlanClosure
import XEmacs.Lib.Cycles

/-! The order of a plan. A package comes after those it requires, or it is on a cycle with them, as
long as no package is planned or raised too late: when others that require it have their place. -/

namespace XEmacs.Elpa

open Lib Relation

def Names (deps : List Dependency) (name : Symbol) : Prop :=
  ∃ dep ∈ deps, packageSymbol dep.name = .ok name

/-- The selected info of `a` requires `b`. -/
def RequiresPackage (s : State) (a b : Symbol) : Prop :=
  ∃ node, s.node a = some node ∧ Names node.reqs b

/-- A package is planned before any package that requires it has its place, and raised only while
those with a place that require it are on a cycle with it. -/
def InTime : Event → Prop
  | .plan s info => ∀ a ∈ s.order, ¬ RequiresPackage s a info.name
  | .replan s node info =>
    (∀ a ∈ s.order, RequiresPackage s a node.name → TransGen (RequiresPackage s) node.name a) ∧
      ∀ r, Names node.reqs r → TransGen (RequiresPackage s) r node.name → Names info.reqs r

/-- A package with a place comes after a package of the plan that it requires, or that one
requires it too. -/
def DependencyFirst (s : State) : Prop :=
  ∀ a ∈ s.order, ∀ b, s.node b ≠ none → RequiresPackage s a b →
    [b, a].Sublist s.order ∨ TransGen (RequiresPackage s) b a

variable {env : Environment} {s s' : State} {path : List Symbol} {name dependent a b : Symbol}
  {info : Info} {deps : List Dependency}

theorem requiresPackage_of_node (h : s'.node a = s.node a) (hab : RequiresPackage s a b) :
    RequiresPackage s' a b := by
  obtain ⟨node, hnode, hnames⟩ := hab
  exact ⟨node, h.trans hnode, hnames⟩

theorem requiresPackage_congr (h : s'.nodes = s.nodes) : RequiresPackage s' = RequiresPackage s := by
  funext a b
  rw [RequiresPackage, RequiresPackage, State.node_of_nodes h]

def OnPath (path : List Symbol) (s : State) : Prop :=
  path.IsChain fun b a => RequiresPackage s a b

theorem OnPath.grows (h : OnPath path s) (hgrows : Grows path s s') : OnPath path s' := by
  refine List.IsChain.imp_of_mem_imp ?_ h
  intro b a _ ha hab
  obtain ⟨node, hnode, hnames⟩ := hab
  obtain ⟨node', hnode', -, heq⟩ := hgrows a node hnode
  exact ⟨node', hnode', heq ha ▸ hnames⟩

theorem OnPath.transGen (h : OnPath (name :: path) s) (hb : b ∈ path) :
    TransGen (RequiresPackage s) b name := by
  induction path generalizing name with
  | nil => exact absurd hb List.not_mem_nil
  | cons c path ih =>
    obtain ⟨hc, hrest⟩ := List.isChain_cons_cons.mp h
    rcases List.mem_cons.mp hb with rfl | hb
    · exact .single hc
    · exact (ih hrest hb).tail hc

theorem DependencyFirst.of_same (h : DependencyFirst s) (hnodes : s'.nodes = s.nodes)
    (horder : s'.order = s.order) : DependencyFirst s' := by
  rw [DependencyFirst, requiresPackage_congr hnodes, State.node_of_nodes hnodes, horder]
  exact h

theorem DependencyFirst.enter (h : DependencyFirst s) (hi : Inv env path s)
    (hnode : s.node info.name = none) (hok : InTime (.plan s info)) :
    DependencyFirst (s.enter info) := by
  have hmono : ∀ a b, RequiresPackage s a b → RequiresPackage (s.enter info) a b := by
    intro a b hab
    refine requiresPackage_of_node (State.node_enter_of_ne ?_) hab
    rintro rfl
    obtain ⟨node, hsome, -⟩ := hab
    exact absurd (hsome.symm.trans hnode) (Option.some_ne_none node)
  intro a ha b hb hab
  have hane : a ≠ info.name := by
    rintro rfl
    exact (hi.mem_iff info.name).mpr (Or.inl ha) hnode
  have hab : RequiresPackage s a b := requiresPackage_of_node (State.node_enter_of_ne hane).symm hab
  have hbne : b ≠ info.name := by
    rintro rfl
    exact hok a ha hab
  rw [State.node_enter_of_ne hbne] at hb
  exact (h a ha b hb hab).imp_right (TransGen.mono hmono b a)

theorem DependencyFirst.raise (h : DependencyFirst s) (hi : Inv env path s) {old : Info}
    (hold : s.node name = some old) (hok : InTime (.replan s old info)) :
    DependencyFirst (s.raise name info) := by
  obtain rfl := hi.name name old hold
  -- packages on a cycle stay so
  have hcycle : ∀ a b, RequiresPackage s a b → TransGen (RequiresPackage s) b a →
      TransGen (RequiresPackage (s.raise old.name info)) b a := by
    intro a b hab hba
    refine transGen_of_cycle (m := old.name) (fun x y hx hxy => ?_) (fun y hy hym => ?_) hba (.single hab)
    · exact requiresPackage_of_node (State.node_raise_of_ne hx) hxy
    · obtain ⟨node, hnode, hnames⟩ := hy
      obtain rfl := Option.some_inj.mp (hold.symm.trans hnode)
      exact ⟨info, State.node_raise_self hold, hok.2 y hnames hym⟩
  intro a ha b hb hab
  obtain ⟨hane, ha⟩ := (hi.nodup.mem_erase_iff).mp ha
  have hab : RequiresPackage s a b := requiresPackage_of_node (State.node_raise_of_ne hane).symm hab
  by_cases hbne : b = old.name
  · subst hbne
    exact Or.inr (hcycle a old.name hab (hok.1 a ha hab))
  · rw [State.node_raise_of_ne hbne] at hb
    refine (h a ha b hb hab).imp (fun hsub => ?_) (hcycle a b hab)
    have herase := hsub.erase old.name
    rwa [List.erase_of_not_mem (by simp [Ne.symm hbne, Ne.symm hane])] at herase

theorem DependencyFirst.place (h : DependencyFirst s) (hi : Inv env (name :: path) s)
    (hpath : OnPath (name :: path) s) : DependencyFirst (s.place name) := by
  intro a ha b hb hab
  rcases List.mem_append.mp ha with ha | ha
  · exact (h a ha b hb hab).imp_left fun hsub => hsub.trans (List.sublist_append_left _ _)
  · obtain rfl := List.mem_singleton.mp ha
    rcases (hi.mem_iff b).mp hb with hb | hb
    · exact Or.inl ((List.singleton_sublist.mpr hb).append (List.Sublist.refl [a]))
    · rcases List.mem_cons.mp hb with rfl | hb
      · exact Or.inr (.single hab)
      · exact Or.inr (hpath.transGen hb)

/-- The first package of the path, and those of its requirements that are still to be planned. -/
def Pending (path : List Symbol) (dependent : Symbol) (deps : List Dependency) (s : State) : Prop :=
  path.head? = some dependent ∧ ∃ node, s.node dependent = some node ∧ deps ⊆ node.reqs

theorem Pending.requires {dep : Dependency} (h : Pending path dependent (dep :: deps) s)
    (hname : packageSymbol dep.name = .ok name) : RequiresPackage s dependent name := by
  obtain ⟨-, node, hnode, hsub⟩ := h
  exact ⟨node, hnode, dep, hsub List.mem_cons_self, hname⟩

theorem Pending.tail {dep : Dependency} (h : Pending path dependent (dep :: deps) s)
    (hgrows : Grows path s s') : Pending path dependent deps s' := by
  obtain ⟨hhead, node, hnode, hsub⟩ := h
  obtain ⟨node', hnode', -, heq⟩ := hgrows dependent node hnode
  obtain rfl := heq (List.mem_of_mem_head? hhead)
  exact ⟨hhead, node', hnode', fun d hd => hsub (List.mem_cons_of_mem dep hd)⟩

theorem OnPath.cons (h : OnPath path s) {dep : Dependency} (hpending : Pending path dependent (dep :: deps) s)
    (hname : packageSymbol dep.name = .ok name) (hgrows : Grows path s s') : OnPath (name :: path) s' := by
  have hpath := h.grows hgrows
  obtain ⟨node, hnode, hnames⟩ := hpending.requires hname
  obtain ⟨node', hnode', -, heq⟩ := hgrows dependent node hnode
  obtain rfl := heq (List.mem_of_mem_head? hpending.1)
  cases path with
  | nil => exact absurd hpending.1 (Option.some_ne_none dependent).symm
  | cons c path =>
    obtain rfl : c = dependent := Option.some_inj.mp hpending.1
    exact List.IsChain.cons_cons ⟨node', hnode', hnames⟩ hpath

theorem Requires.dependencyFirst (h : Requires env InTime path dependent deps s s')
    (hi : Inv env path s) (hfirst : DependencyFirst s) (hpath : OnPath path s)
    (hpending : Pending path dependent deps s) : DependencyFirst s' := by
  induction h with
  | nil => exact hfirst
  | skip hname hskips hrest ih =>
    obtain ⟨hnodes, horder⟩ := hskips.nodes_order
    exact ih (hi.of_same hnodes horder) (hfirst.of_same hnodes horder)
      (hpath.grows (Grows.of_nodes hnodes)) (hpending.tail (Grows.of_nodes hnodes))
  | @plan path dependent name dep deps info s s₁ s₂ hname hmissing hnode hresolve hok hreqs hrest
      ihreqs ihrest =>
    obtain ⟨hinfo, -⟩ := resolveDependency_eq hresolve
    subst hinfo
    have hgrows : Grows path s (s.enter info) := grows_enter hnode
    have hpath' := hpath.cons hpending hname hgrows
    have hi' := hi.enter hnode
    obtain ⟨hi₁, hgrows₁, hall₁⟩ := hreqs.inv hi'
    obtain ⟨node₁, hnode₁, -, heq₁⟩ := hgrows₁ info.name info State.node_enter_self
    obtain rfl := heq₁ List.mem_cons_self
    have hfirst₁ := ihreqs hi' (hfirst.enter hi hnode hok) hpath'
      ⟨rfl, node₁, State.node_enter_self, List.Subset.refl _⟩
    have hgrows₂ : Grows path s (s₁.place node₁.name) := hgrows.trans hgrows₁.tail
    exact ihrest (hi₁.place hmissing.notOnPath hnode₁ hall₁) (hfirst₁.place hi₁ (hpath'.grows hgrows₁))
      (hpath.grows hgrows₂) (hpending.tail hgrows₂)
  | @replan path dependent name dep deps node info s s₁ s₂ hname hmissing hnode hbelow hresolve hok
      hreqs hrest ihreqs ihrest =>
    obtain ⟨hinfo, hfloor⟩ := resolveDependency_eq hresolve
    have hle := Environment.le_of_atLeast hbelow hfloor
    have hgrows := grows_raise hnode hmissing.notOnPath hle
    have hpath' := hpath.cons hpending hname hgrows
    have hi' := hi.raise hnode hmissing.notOnPath hinfo hle
    obtain ⟨hi₁, hgrows₁, hall₁⟩ := hreqs.inv hi'
    obtain ⟨node₁, hnode₁, -, heq₁⟩ := hgrows₁ name info (State.node_raise_self hnode)
    obtain rfl := heq₁ List.mem_cons_self
    have hfirst₁ := ihreqs hi' (hfirst.raise hi hnode hok) hpath'
      ⟨rfl, node₁, State.node_raise_self hnode, List.Subset.refl _⟩
    have hgrows₂ : Grows path s (s₁.place name) := hgrows.trans hgrows₁.tail
    exact ihrest (hi₁.place hmissing.notOnPath hnode₁ hall₁) (hfirst₁.place hi₁ (hpath'.grows hgrows₁))
      (hpath.grows hgrows₂) (hpending.tail hgrows₂)

/-- When all packages are planned and raised in time, the order is dependency-first. -/
theorem plans_dependencyFirst (h : Plans env InTime info s) :
    (∃ fuel, plan env fuel info = .ok s) ∧
      ∀ a ∈ s.order, ∀ b ∈ s.order, RequiresPackage s a b → ¬ TransGen (RequiresPackage s) b a →
        [b, a].Sublist s.order := by
  refine ⟨h.exists_fuel, fun a ha b hb hab hba => ?_⟩
  have hi := h.inv
  have hfirst : DependencyFirst s := by
    cases h with
    | intro hok hreqs =>
      have hinit : Inv env [] State.init := inv_init
      have hi' : Inv env [info.name] (State.init.enter info) := hinit.enter rfl
      have hempty : DependencyFirst State.init := fun a ha => absurd ha List.not_mem_nil
      have hpath : OnPath [info.name] (State.init.enter info) := List.IsChain.singleton _
      have hfirst := hreqs.dependencyFirst hi' (hempty.enter hinit rfl hok) hpath
        ⟨rfl, info, State.node_enter_self, List.Subset.refl _⟩
      obtain ⟨hi₁, hgrows, -⟩ := hreqs.inv hi'
      exact hfirst.place hi₁ (hpath.grows hgrows)
  exact (hfirst a ha b ((hi.mem_iff b).mpr (Or.inl hb)) hab).resolve_right hba

/-- A package that requires any `b`. -/
def requiresAny : Info := ⟨"root", [1], [⟨.symbol "b", none⟩], "melpa"⟩

theorem plans_dependencyFirst_requiresAny :
    ∃ s, s.order = ["b", "root"] ∧ (∃ fuel, plan twoArchives fuel requiresAny = .ok s) ∧
      ∀ a ∈ s.order, ∀ b ∈ s.order, RequiresPackage s a b → ¬ TransGen (RequiresPackage s) b a →
        [b, a].Sublist s.order := by
  have hnone : ∀ s info, s.order = [] → InTime (.plan s info) := by
    intro s info hs a ha
    rw [hs] at ha
    exact absurd ha List.not_mem_nil
  have hmissing : Missing twoArchives ["root"] "b" none :=
    ⟨⟨by decide, by decide, by decide⟩, rfl, by decide⟩
  have hplans : Plans twoArchives InTime requiresAny _ :=
    .intro (hnone _ _ rfl) (.plan rfl hmissing rfl rfl (hnone _ _ rfl) .nil .nil)
  exact ⟨_, rfl, plans_dependencyFirst hplans⟩

/-- `b` is raised when `a` has its place, and gets a place behind it. -/
theorem plan_not_dependencyFirst :
    ∃ s, plan twoArchives 3 requiresNewer = .ok s ∧ "a" ∈ s.order ∧ "b" ∈ s.order ∧
      RequiresPackage s "a" "b" ∧ ¬ TransGen (RequiresPackage s) "b" "a" ∧
      ¬ ["b", "a"].Sublist s.order := by
  refine ⟨_, rfl, by decide, by decide, ⟨_, rfl, ⟨.symbol "b", some (.list 1 [])⟩, by decide, rfl⟩, ?_,
    by decide⟩
  intro hba
  obtain ⟨c, ⟨node, hnode, dep, hdep, -⟩, -⟩ := TransGen.head'_iff.mp hba
  obtain rfl := Option.some_inj.mp (hnode.symm.trans rfl)
  exact absurd hdep List.not_mem_nil

end XEmacs.Elpa
