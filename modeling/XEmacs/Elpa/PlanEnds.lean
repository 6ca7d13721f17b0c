import Mathlib.Data.Finset.Card
import Mathlib.Data.Finset.SDiff
import XEmacs.Elpa.PlanRuns

/-! Planning ends: a requirement is planned or raised only below others on the path, which are
different installable packages, so that a depth above their number is never exhausted, and more
depth changes nothing. -/

namespace XEmacs.Elpa

open Lib

/-- A result that is not for lack of depth, and that another one equals. -/
def Settled {α : Type} (r r' : Except Error α) : Prop := r ≠ .error .unfinished ∧ r' = r

namespace Settled

variable {α β : Type} {r r' : Except Error α}

theorem ok (a : α) : Settled (.ok a) (.ok a) := ⟨(fun h => by cases h), rfl⟩

theorem error {e : Error} (h : e ≠ .unfinished) : Settled (.error e : Except Error α) (.error e) :=
  ⟨fun heq => h (Except.error.inj heq), rfl⟩

theorem bind {f g : α → Except Error β} (h : Settled r r') (hf : ∀ a, r = .ok a → Settled (f a) (g a)) :
    Settled (r >>= f) (r' >>= g) := by
  obtain ⟨hr, heq⟩ := h
  rw [heq]
  cases r with
  | error e => exact error fun heq => hr (congrArg _ heq)
  | ok a => exact hf a rfl

end Settled

/-- What is read never says that the depth is exhausted. -/
structure Environment.Readable (env : Environment) : Prop where
  consultArchive : ∀ archive, env.consultArchive archive ≠ .error .unfinished
  versionToList : ∀ s, env.versionToList s ≠ .error .unfinished

def Environment.left (env : Environment) (path : List Symbol) : ℕ :=
  (env.installablePackages.toFinset \ path.toFinset).card

variable {env : Environment} {path : List Symbol} {name dependent : Symbol} {version : Option Version}

theorem left_cons_lt (hallowed : name ∈ env.installablePackages) (hpath : name ∉ path) :
    env.left (name :: path) < env.left path := by
  apply Finset.card_lt_card
  rw [Finset.ssubset_iff_of_subset]
  · exact ⟨name, by simp [hallowed, hpath], by simp⟩
  · intro other
    simp only [List.toFinset_cons, Finset.mem_sdiff, Finset.mem_insert, not_or]
    exact fun h => ⟨h.1, h.2.2⟩

section

variable (henv : env.Readable)
include henv

theorem versionList_settled (v : Version) : Settled (env.versionList v) (env.versionList v) := by
  cases v with
  | string s => exact ⟨henv.versionToList s, rfl⟩
  | list x l => exact .ok _
  | other => exact .error fun h => by cases h

theorem atLeast_settled (found : List ℤ) : Settled (env.atLeast version found) (env.atLeast version found) := by
  cases version with
  | none => exact .ok _
  | some v =>
    obtain ⟨hv, -⟩ := versionList_settled henv v
    rw [Environment.atLeast]
    cases hlist : env.versionList v with
    | error e => exact .error fun h => hv (hlist.trans (congrArg _ h))
    | ok list => exact .ok _

theorem installedAtLeast_settled :
    Settled (env.installedAtLeast name version) (env.installedAtLeast name version) := by
  rw [Environment.installedAtLeast]
  cases env.newestInstalledBuild name with
  | none => exact .ok _
  | some build => exact atLeast_settled henv build

theorem searchArchives_settled (wanted : Option (List ℤ)) (archives : List String) (first : Option Info) :
    Settled (env.searchArchives name wanted archives first) (env.searchArchives name wanted archives first) := by
  induction archives generalizing first with
  | nil => exact .ok _
  | cons archive archives ih =>
    rw [Environment.searchArchives]
    refine Settled.bind ⟨henv.consultArchive archive, rfl⟩ fun entries _ => ?_
    cases entries.find? fun entry => entry.name = name with
    | none => exact ih first
    | some entry =>
      refine Settled.bind ?_ fun info _ => ?_
      · rw [entryInfo]
        cases entry.version with
        | none => exact .error fun h => by cases h
        | some v => exact .ok _
      · cases wanted with
        | none => exact .ok _
        | some wanted =>
          show Settled (if _ then _ else _) (if _ then _ else _)
          split
          · exact .ok _
          · exact ih _

theorem resolveDependency_settled : Settled (env.resolveDependency name version dependent)
    (env.resolveDependency name version dependent) := by
  rw [Environment.resolveDependency]
  refine Settled.bind ?_ fun wanted _ => Settled.bind (searchArchives_settled henv _ _ _) fun found _ => ?_
  · cases version with
    | none => exact .ok _
    | some v => exact Settled.bind (versionList_settled henv v) fun _ _ => .ok _
  · obtain ⟨found, first⟩ := found
    cases found with
    | some info => exact .ok _
    | none =>
      cases first with
      | none => exact .error fun h => by cases h
      | some first => exact .error fun h => by cases h

omit henv in
theorem requireAll_settled {require require' : Planner}
    (hrequire : ∀ dependency s, Settled (require path dependency dependent s) (require' path dependency dependent s))
    (deps : List Dependency) (s : State) :
    Settled (requireAll require path dependent deps s) (requireAll require' path dependent deps s) := by
  induction deps generalizing s with
  | nil => exact .ok s
  | cons dependency deps ih => exact (hrequire dependency s).bind fun s' _ => ih s'

theorem requireDependency_settled {fuel : ℕ} (hfuel : env.left path < fuel) (dependency : Dependency) (s : State) :
    Settled (requireDependency env fuel path dependency dependent s)
      (requireDependency env (fuel + 1) path dependency dependent s) := by
  induction fuel generalizing path dependent dependency s with
  | zero => exact absurd hfuel (Nat.not_lt_zero _)
  | succ fuel ih =>
    rw [requireDependency, requireDependency]
    refine Settled.bind ?_ fun name _ => ?_
    · cases dependency.name with
      | symbol name => exact .ok name
      | string name => exact .ok name
      | other => exact .error fun h => by cases h
    · by_cases hemacs : name = "emacs"
      · simp only [if_pos hemacs]
        exact .ok _
      · by_cases hcore : name ∈ coreProvidedPackages
        · simp only [if_neg hemacs, if_pos hcore]
          exact .ok _
        · by_cases hallowed : name ∈ env.installablePackages
          · simp only [if_neg hemacs, if_neg hcore, not_not.mpr hallowed, if_false]
            refine (installedAtLeast_settled henv).bind fun installed _ => ?_
            cases installed with
            | true => exact .ok _
            | false =>
              show Settled (if name ∈ path then _ else _) (if name ∈ path then _ else _)
              by_cases hpath : name ∈ path
              · rw [if_pos hpath, if_pos hpath]
                refine (atLeast_settled henv _).bind fun enough _ => ?_
                cases enough with
                | true => exact .ok _
                | false => exact .error fun h => by cases h
              · -- one package less may come on the longer path
                have hless : env.left (name :: path) < fuel := by
                  have hlt := left_cons_lt hallowed hpath
                  omega
                rw [if_neg hpath, if_neg hpath]
                cases s.node name with
                | none =>
                  refine (resolveDependency_settled henv).bind fun info hinfo => ?_
                  obtain ⟨rfl, -⟩ := resolveDependency_eq hinfo
                  exact (requireAll_settled (ih hless) info.reqs _).bind fun s' _ => .ok _
                | some node =>
                  refine (atLeast_settled henv _).bind fun enough _ => ?_
                  cases enough with
                  | true => exact .ok _
                  | false =>
                    refine (resolveDependency_settled henv).bind fun info _ => ?_
                    exact (requireAll_settled (ih hless) info.reqs _).bind fun s' _ => .ok _
          · simp only [if_neg hemacs, if_neg hcore, if_pos hallowed]
            exact .error fun h => by cases h

/-- The planner ends: with any depth above the number of installable packages it comes to the same plan or error. -/
theorem plan_ends (info : Info) : ∃ result : Except Error State, result ≠ .error .unfinished ∧
    ∀ fuel, env.installablePackages.length < fuel → plan env fuel info = result := by
  have hplan (fuel : ℕ) (hfuel : env.installablePackages.length < fuel) :
      Settled (plan env fuel info) (plan env (fuel + 1) info) := by
    have hleft : env.left [info.name] < fuel :=
      ((Finset.card_le_card Finset.sdiff_subset).trans (List.toFinset_card_le _)).trans_lt hfuel
    exact (requireAll_settled (requireDependency_settled henv hleft) info.reqs _).bind fun s _ => .ok _
  refine ⟨plan env (env.installablePackages.length + 1) info, (hplan _ (Nat.lt_succ_self _)).1, fun fuel hfuel => ?_⟩
  induction fuel, hfuel using Nat.le_induction with
  | base => rfl
  | succ fuel hle ih => exact (hplan fuel hle).2.trans ih

end

def mutualArchives : Environment where
  archives := ["melpa", "gnu"]
  consultArchive archive :=
    if archive = "melpa" then .ok [⟨"a", some [1], [⟨.symbol "b", some (.list 1 [])⟩]⟩,
      ⟨"b", some [1], [⟨.symbol "a", none⟩]⟩]
    else .ok [⟨"b", some [2], [⟨.symbol "a", some (.list 2 [])⟩]⟩]
  installablePackages := ["a", "b"]
  installedBuilds _ := []
  versionToList _ := .error .malformedVersion

theorem readable_mutualArchives : mutualArchives.Readable where
  consultArchive archive := by
    show (if archive = "melpa" then _ else _) ≠ Except.error Error.unfinished
    split <;> exact fun h => by cases h
  versionToList s h := by cases h

theorem plan_ends_mutualArchives : ∃ result : Except Error State, result ≠ .error .unfinished ∧
    ∀ fuel, 2 < fuel → plan mutualArchives fuel ⟨"a", [1], [⟨.symbol "b", some (.list 2 [])⟩], "melpa"⟩ = result :=
  plan_ends readable_mutualArchives _

end XEmacs.Elpa
