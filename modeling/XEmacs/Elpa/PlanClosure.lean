import XEmacs.Elpa.PlanRuns

/-! A plan is closed: every requirement of every package in it is met. Versions in the plan only
rise, so that a requirement that is met stays so, and a package that is on the path is not
raised before all of its requirements were planned. -/

namespace XEmacs.Elpa

variable {env : Environment} {s s' : State} {path : List Symbol} {name dependent : Symbol}
  {info : Info} {dep : Dependency} {deps : List Dependency} {version : Option Version}

theorem Environment.atLeast_mono {l l' : List ℤ} (h : env.atLeast version l = .ok true)
    (hle : versionListLe l l' = true) : env.atLeast version l' = .ok true := by
  cases version with
  | none => rfl
  | some version =>
    rw [Environment.atLeast] at h ⊢
    cases hv : env.versionList version with
    | error e =>
      rw [hv] at h
      exact absurd h (by simp [Functor.map, Except.map])
    | ok floor =>
      rw [hv] at h
      exact congrArg Except.ok (versionListLe_trans (Except.ok.inj h) hle)

theorem Environment.le_of_atLeast {l l' : List ℤ} (h : env.atLeast version l = .ok false)
    (h' : env.atLeast version l' = .ok true) : versionListLe l l' = true := by
  rcases versionListLe_total l l' with hle | hle
  · exact hle
  · exact absurd (h.symm.trans (atLeast_mono h' hle)) (by simp)

theorem mem_of_foldl_eq_some {α : Type*} {f : Option α → α → Option α}
    (hf : ∀ kept first x, f kept first = some x → kept = some x ∨ first = x) {x : α} :
    ∀ (l : List α) (kept : Option α), l.foldl f kept = some x → kept = some x ∨ x ∈ l := by
  intro l
  induction l with
  | nil => exact fun kept h => Or.inl h
  | cons first l ih =>
    intro kept h
    rcases ih _ h with hnew | hmem
    · rcases hf kept first x hnew with hkept | rfl
      · exact Or.inl hkept
      · exact Or.inr List.mem_cons_self
    · exact Or.inr (List.mem_cons_of_mem first hmem)

theorem Environment.newestInstalledBuild_mem {build : List ℤ}
    (h : env.newestInstalledBuild name = some build) : build ∈ env.installedBuilds name := by
  refine (mem_of_foldl_eq_some ?_ _ none h).resolve_left (Option.some_ne_none build).symm
  rintro (_ | newest) first x hx
  · exact Or.inr (Option.some_inj.mp hx)
  · simp only at hx
    split at hx
    · exact Or.inr (Option.some_inj.mp hx)
    · exact Or.inl hx

/-- A requirement is on the editor or its core, or on a package installed or planned at a version
not below the floor. -/
def Holds (env : Environment) (s : State) (dep : Dependency) : Prop :=
  ∃ name, packageSymbol dep.name = .ok name ∧
    (name = "emacs" ∨ name ∈ coreProvidedPackages ∨ name ∈ env.installablePackages ∧
      ((∃ build ∈ env.installedBuilds name, env.atLeast dep.version build = .ok true) ∨
      ∃ node, s.node name = some node ∧ env.atLeast dep.version node.version = .ok true))

def Grows (path : List Symbol) (s s' : State) : Prop :=
  ∀ name node, s.node name = some node → ∃ node', s'.node name = some node' ∧
    versionListLe node.version node'.version = true ∧ (name ∈ path → node' = node)

theorem versionListLe_refl (l : List ℤ) : versionListLe l l = true :=
  (versionListLe_total l l).elim id id

theorem Grows.of_nodes (h : s'.nodes = s.nodes) : Grows path s s' := fun name node hnode =>
  ⟨node, (congrFun (State.node_of_nodes h) name).trans hnode, versionListLe_refl _, fun _ => rfl⟩

theorem Grows.trans {s'' : State} (h : Grows path s s') (h' : Grows path s' s'') :
    Grows path s s'' := by
  intro name node hnode
  obtain ⟨node', hnode', hle, heq⟩ := h name node hnode
  obtain ⟨node'', hnode'', hle', heq'⟩ := h' name node' hnode'
  exact ⟨node'', hnode'', versionListLe_trans hle hle', fun hp => (heq' hp).trans (heq hp)⟩

theorem Grows.tail (h : Grows (name :: path) s s') : Grows path s s' := by
  intro other node hnode
  obtain ⟨node', hnode', hle, heq⟩ := h other node hnode
  exact ⟨node', hnode', hle, fun hp => heq (List.mem_cons_of_mem name hp)⟩

theorem grows_enter (hnode : s.node info.name = none) : Grows path s (s.enter info) := by
  intro other node hother
  have hne : other ≠ info.name := by
    rintro rfl
    exact absurd (hother.symm.trans hnode) (Option.some_ne_none node)
  exact ⟨node, (State.node_enter_of_ne hne).trans hother, versionListLe_refl _, fun _ => rfl⟩

theorem grows_raise {old : Info} (hold : s.node name = some old) (hpath : name ∉ path)
    (hle : versionListLe old.version info.version = true) : Grows path s (s.raise name info) := by
  intro other node hnode
  by_cases hother : other = name
  · subst hother
    obtain rfl := Option.some_inj.mp (hold.symm.trans hnode)
    exact ⟨info, State.node_raise_self hold, hle, fun hp => absurd hp hpath⟩
  · exact ⟨node, (State.node_raise_of_ne hother).trans hnode, versionListLe_refl _, fun _ => rfl⟩

theorem Holds.grows (h : Holds env s dep) (hgrows : Grows path s s') : Holds env s' dep := by
  obtain ⟨name, hname, hcase⟩ := h
  refine ⟨name, hname, hcase.imp_right fun hcase => hcase.imp_right fun ⟨hallowed, hcase⟩ =>
    ⟨hallowed, hcase.imp_right fun ⟨node, hnode, hfloor⟩ => ?_⟩⟩
  obtain ⟨node', hnode', hle, -⟩ := hgrows name node hnode
  exact ⟨node', hnode', Environment.atLeast_mono hfloor hle⟩

/-- The nodes are those in the order and those on the path, and the requirements of those in the
order are met. -/
structure Inv (env : Environment) (path : List Symbol) (s : State) : Prop where
  nodup : s.order.Nodup
  apart : ∀ n ∈ s.order, n ∉ path
  mem_iff : ∀ n, s.node n ≠ none ↔ n ∈ s.order ∨ n ∈ path
  name : ∀ n node, s.node n = some node → node.name = n
  closed : ∀ n ∈ s.order, ∀ node, s.node n = some node → ∀ dep ∈ node.reqs, Holds env s dep

theorem Inv.of_same (h : Inv env path s) (hnodes : s'.nodes = s.nodes) (horder : s'.order = s.order) :
    Inv env path s' := by
  have hnode := State.node_of_nodes hnodes
  refine ⟨horder ▸ h.nodup, horder ▸ h.apart, fun n => ?_, fun n node hn => ?_,
    fun n hn node hnode' dep hd => ?_⟩
  · rw [hnode, horder]
    exact h.mem_iff n
  · rw [hnode] at hn
    exact h.name n node hn
  · rw [hnode] at hnode'
    rw [horder] at hn
    have hgrows : Grows path s s' := Grows.of_nodes hnodes
    exact (h.closed n hn node hnode' dep hd).grows hgrows

theorem Skips.holds (h : Skips env path dependent s name dep.version s')
    (hname : packageSymbol dep.name = .ok name) (hi : Inv env path s) : Holds env s dep := by
  refine ⟨name, hname, ?_⟩
  cases h with
  | emacs h => exact Or.inl h
  | core _ h => exact Or.inr (Or.inl h)
  | installed hwanted h =>
    refine Or.inr (Or.inr ⟨hwanted.allowed, Or.inl ?_⟩)
    rw [Environment.installedAtLeast] at h
    split at h
    case h_1 => exact absurd (Except.ok.inj h) Bool.false_ne_true
    case h_2 build hbuild => exact ⟨build, Environment.newestInstalledBuild_mem hbuild, h⟩
  | cycle hwanted _ hpath hplanned h =>
    obtain ⟨node, hnode⟩ := Option.ne_none_iff_exists'.mp ((hi.mem_iff name).mpr (Or.inr hpath))
    rw [hnode] at hplanned
    subst hplanned
    exact Or.inr (Or.inr ⟨hwanted.allowed, Or.inr ⟨node, hnode, h⟩⟩)
  | planned hmissing hnode h => exact Or.inr (Or.inr ⟨hmissing.allowed, Or.inr ⟨_, hnode, h⟩⟩)

theorem Inv.enter (h : Inv env path s) (hnode : s.node info.name = none) :
    Inv env (info.name :: path) (s.enter info) where
  nodup := h.nodup
  apart n hn := by
    rw [List.mem_cons, not_or]
    refine ⟨?_, h.apart n hn⟩
    rintro rfl
    exact (h.mem_iff info.name).mpr (Or.inl hn) hnode
  mem_iff n := by
    by_cases hn : n = info.name
    · subst hn
      rw [State.node_enter_self]
      exact iff_of_true (Option.some_ne_none info) (Or.inr List.mem_cons_self)
    · rw [State.node_enter_of_ne hn, h.mem_iff n, List.mem_cons]
      show n ∈ s.order ∨ n ∈ path ↔ n ∈ s.order ∨ n = info.name ∨ n ∈ path
      rw [or_iff_right hn]
  name n node hn := by
    by_cases heq : n = info.name
    · subst heq
      rw [State.node_enter_self] at hn
      rw [← Option.some_inj.mp hn]
    · exact h.name n node ((State.node_enter_of_ne heq).symm.trans hn)
  closed n hn node hnode' dep hd := by
    have hne : n ≠ info.name := by
      rintro rfl
      exact (h.mem_iff info.name).mpr (Or.inl hn) hnode
    have hgrows : Grows path s (s.enter info) := grows_enter hnode
    exact (h.closed n hn node ((State.node_enter_of_ne hne).symm.trans hnode') dep hd).grows hgrows

theorem Inv.raise (h : Inv env path s) {old : Info} (hold : s.node name = some old) (hpath : name ∉ path)
    (hname : info.name = name) (hle : versionListLe old.version info.version = true) :
    Inv env (name :: path) (s.raise name info) where
  nodup := h.nodup.erase name
  apart n hn := by
    have hn := (h.nodup.mem_erase_iff).mp hn
    rw [List.mem_cons, not_or]
    exact ⟨hn.1, h.apart n hn.2⟩
  mem_iff n := by
    show _ ↔ n ∈ s.order.erase name ∨ n ∈ name :: path
    rw [h.nodup.mem_erase_iff, List.mem_cons]
    by_cases hn : n = name
    · subst hn
      rw [State.node_raise_self hold]
      exact iff_of_true (Option.some_ne_none info) (Or.inr (Or.inl rfl))
    · rw [State.node_raise_of_ne hn, h.mem_iff n, and_iff_right hn, or_iff_right hn]
  name n node hn := by
    by_cases heq : n = name
    · subst heq
      rw [State.node_raise_self hold] at hn
      rw [← Option.some_inj.mp hn, hname]
    · exact h.name n node ((State.node_raise_of_ne heq).symm.trans hn)
  closed n hn node hnode' dep hd := by
    have hn := (h.nodup.mem_erase_iff).mp hn
    exact (h.closed n hn.2 node ((State.node_raise_of_ne hn.1).symm.trans hnode') dep hd).grows
      (grows_raise hold hpath hle)

theorem Inv.place (h : Inv env (name :: path) s) (hpath : name ∉ path) (hnode : s.node name = some info)
    (hreqs : ∀ dep ∈ info.reqs, Holds env s dep) : Inv env path (s.place name) where
  nodup := by
    refine List.nodup_append.mpr ⟨h.nodup, List.nodup_singleton name, fun n hn m hm hnm => ?_⟩
    rw [hnm, List.mem_singleton.mp hm] at hn
    exact h.apart name hn List.mem_cons_self
  apart n hn := by
    rcases List.mem_append.mp hn with hn | hn
    · exact fun hp => h.apart n hn (List.mem_cons_of_mem name hp)
    · exact List.mem_singleton.mp hn ▸ hpath
  mem_iff n := by
    show s.node n ≠ none ↔ n ∈ s.order ++ [name] ∨ n ∈ path
    rw [h.mem_iff n, List.mem_append, List.mem_singleton, List.mem_cons, or_assoc]
  name := h.name
  closed n hn node hnode' := by
    rcases List.mem_append.mp hn with hn | hn
    · exact h.closed n hn node hnode'
    · rw [List.mem_singleton.mp hn] at hnode'
      obtain rfl := Option.some_inj.mp (hnode.symm.trans hnode')
      exact hreqs

theorem Requires.inv {ok : Event → Prop} (h : Requires env ok path dependent deps s s')
    (hi : Inv env path s) : Inv env path s' ∧ Grows path s s' ∧ ∀ dep ∈ deps, Holds env s' dep := by
  induction h with
  | nil => exact ⟨hi, Grows.of_nodes rfl, fun _ hd => absurd hd List.not_mem_nil⟩
  | skip hname hskips hrest ih =>
    have hholds := hskips.holds hname hi
    obtain ⟨hnodes, horder⟩ := hskips.nodes_order
    obtain ⟨hi', hgrows, hall⟩ := ih (hi.of_same hnodes horder)
    have hgrows := (Grows.of_nodes hnodes).trans hgrows
    exact ⟨hi', hgrows, List.forall_mem_cons.mpr ⟨hholds.grows hgrows, hall⟩⟩
  | @plan path dependent name dep deps info s s₁ s₂ hname hmissing hnode hresolve _ hreqs hrest
      ihreqs ihrest =>
    obtain ⟨hinfo, hfloor⟩ := resolveDependency_eq hresolve
    subst hinfo
    obtain ⟨hi₁, hgrows₁, hall₁⟩ := ihreqs (hi.enter hnode)
    obtain ⟨node₁, hnode₁, hle₁, heq₁⟩ := hgrows₁ info.name info State.node_enter_self
    obtain rfl := heq₁ List.mem_cons_self
    obtain ⟨hi₂, hgrows₂, hall₂⟩ := ihrest (hi₁.place hmissing.notOnPath hnode₁ hall₁)
    have hholds : Holds env (s₁.place node₁.name) dep :=
      ⟨node₁.name, hname, Or.inr (Or.inr ⟨hmissing.allowed, Or.inr ⟨node₁, hnode₁, hfloor⟩⟩)⟩
    have hgrows : Grows path s (s₁.place node₁.name) := (grows_enter hnode).trans hgrows₁.tail
    exact ⟨hi₂, hgrows.trans hgrows₂, List.forall_mem_cons.mpr ⟨hholds.grows hgrows₂, hall₂⟩⟩
  | @replan path dependent name dep deps node info s s₁ s₂ hname hmissing hnode hbelow hresolve _ hreqs
      hrest ihreqs ihrest =>
    obtain ⟨hinfo, hfloor⟩ := resolveDependency_eq hresolve
    have hle := Environment.le_of_atLeast hbelow hfloor
    obtain ⟨hi₁, hgrows₁, hall₁⟩ := ihreqs (hi.raise hnode hmissing.notOnPath hinfo hle)
    obtain ⟨node₁, hnode₁, hle₁, heq₁⟩ := hgrows₁ name info (State.node_raise_self hnode)
    obtain rfl := heq₁ List.mem_cons_self
    obtain ⟨hi₂, hgrows₂, hall₂⟩ := ihrest (hi₁.place hmissing.notOnPath hnode₁ hall₁)
    have hholds : Holds env (s₁.place name) dep :=
      ⟨name, hname, Or.inr (Or.inr ⟨hmissing.allowed, Or.inr ⟨node₁, hnode₁, hfloor⟩⟩)⟩
    have hgrows : Grows path s (s₁.place name) := (grows_raise hnode hmissing.notOnPath hle).trans hgrows₁.tail
    exact ⟨hi₂, hgrows.trans hgrows₂, List.forall_mem_cons.mpr ⟨hholds.grows hgrows₂, hall₂⟩⟩

theorem inv_init : Inv env [] State.init where
  nodup := List.nodup_nil
  apart _ hn := absurd hn List.not_mem_nil
  mem_iff _ := iff_of_false (fun h => h rfl) fun h => h.elim List.not_mem_nil List.not_mem_nil
  name _ _ hn := absurd hn (Option.some_ne_none _).symm
  closed _ hn := absurd hn List.not_mem_nil

theorem Plans.inv {ok : Event → Prop} (h : Plans env ok info s) : Inv env [] s := by
  cases h with
  | intro _ hreqs =>
    obtain ⟨hi, hgrows, hall⟩ := hreqs.inv (inv_init.enter rfl)
    obtain ⟨node, hnode, -, heq⟩ := hgrows info.name info State.node_enter_self
    obtain rfl := heq List.mem_cons_self
    exact hi.place List.not_mem_nil hnode hall

/-- Planning that succeeds gives each package of the plan one place in the order, and a plan in
which every requirement of every selected package is met. -/
theorem plan_closed {fuel : ℕ} (h : plan env fuel info = .ok s) :
    s.order.Nodup ∧ (∀ n, n ∈ s.order ↔ ∃ node, s.node n = some node) ∧
      ∀ n node, s.node n = some node → ∀ dep ∈ node.reqs, Holds env s dep := by
  have hi := (plans_of_plan h).inv
  have hmem : ∀ n, n ∈ s.order ↔ ∃ node, s.node n = some node := by
    intro n
    rw [← Option.ne_none_iff_exists', hi.mem_iff n, or_iff_left List.not_mem_nil]
  exact ⟨hi.nodup, hmem, fun n node hnode => hi.closed n ((hmem n).mpr ⟨node, hnode⟩) node hnode⟩

/-- Two archives, where the second one has the newer `b`. -/
def twoArchives : Environment where
  archives := ["melpa", "gnu"]
  consultArchive archive :=
    if archive = "melpa" then
      .ok [⟨"a", some [1], [⟨.symbol "b", some (.list 1 [])⟩]⟩, ⟨"b", some [1], []⟩]
    else .ok [⟨"b", some [2], []⟩]
  installablePackages := ["root", "a", "b"]
  installedBuilds _ := []
  versionToList _ := .error .malformedVersion

/-- A package that requires `a`, and a newer `b` than `a` does. -/
def requiresNewer : Info :=
  ⟨"root", [1], [⟨.symbol "a", none⟩, ⟨.symbol "b", some (.list 2 [])⟩], "melpa"⟩

theorem plan_requiresNewer :
    ∃ s, plan twoArchives 3 requiresNewer = .ok s ∧ s.order = ["a", "b", "root"] :=
  ⟨_, rfl, rfl⟩

theorem plan_closed_requiresNewer :
    ∃ s, plan twoArchives 3 requiresNewer = .ok s ∧ s.order.Nodup := by
  obtain ⟨s, hs, -⟩ := plan_requiresNewer
  exact ⟨s, hs, (plan_closed hs).1⟩

end XEmacs.Elpa
