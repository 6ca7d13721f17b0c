import XEmacs.Keymap.KeymapTrie

/-! What `define-key` does to the words of a keymap: it inserts the word of its keys. On the way it makes the submaps
for modifiers and the prefix keymaps that are missing. -/

namespace XEmacs.Keymaps

open Lib

variable {env : Lisp} {mpc : MetaPrefixChar} {s t u : State} {root i n c fuel : ℕ}
  {addr addr' addr'' : ℕ → Option (List TableKey)} {p q : List TableKey} {key : KeyData} {keys : List KeyData}
  {definition v : Value} {m : Modifiers} {tk : TableKey}

/-! ### Tables -/

structure SameTables (s t : State) : Prop where
  nextKeymap_eq : t.nextKeymap = s.nextKeymap
  table_eq : ∀ j, (t.keymaps j).table = (s.keymaps j).table

theorem SameTables.gethash (h : SameTables s t) (j : ℕ) (tk : TableKey) : t.gethash j tk = s.gethash j tk := by
  rw [gethash_eq, gethash_eq, h.table_eq]

theorem sameTables_modify (s : State) (id : ℕ) (f : Keymap → Keymap) (hf : ∀ k, (f k).table = k.table) :
    SameTables s (s.modify id f) := by
  refine ⟨rfl, fun j => ?_⟩
  by_cases hj : j = id
  · rw [hj, modify_self, hf]
  · rw [modify_of_ne s hj]

theorem sameTables_deleteLoop {keysym : TableKey} {newKeys keys' tail : Object} {prev : Option ℕ}
    (h : s.deleteLoop keysym newKeys fuel prev tail = .ok (t, keys')) : SameTables s t := by
  induction fuel generalizing prev tail with
  | zero => cases h
  | succ fuel ih =>
    have hstore (value : Object) (heq : s.storePrev newKeys prev value = (t, keys')) : SameTables s t := by
      cases prev <;> obtain ⟨rfl, -⟩ := Prod.mk.inj heq <;> exact ⟨rfl, fun _ => rfl⟩
    rw [State.deleteLoop.eq_def] at h
    simp only at h
    split_ifs at h with htail
    · exact hstore _ (Except.ok.inj h)
    · cases tail with
      | atom a => cases h
      | cons x =>
        simp only at h
        split_ifs at h with hcar
        · exact hstore _ (Except.ok.inj h)
        · exact ih h

theorem sameTables_deleteInverse (s : State) (keysym : TableKey) (id : ℕ) (value : Value) :
    SameTables s (s.deleteInverse keysym id value).1 := by
  rw [State.deleteInverse]
  cases (s.keymaps id).inverseTable.lookup value with
  | none => exact ⟨rfl, fun _ => rfl⟩
  | some keys =>
    simp only
    cases hloop : s.deleteLoop keysym keys (s.nextCons + 1) none keys with
    | error e => exact ⟨rfl, fun _ => rfl⟩
    | ok r =>
      have hsame : SameTables s r.1 := sameTables_deleteLoop hloop
      simp only
      split_ifs
      · have hput := sameTables_modify r.1 id (fun k => { k with inverseTable := k.inverseTable.erase value }) fun _ => rfl
        exact ⟨hput.nextKeymap_eq.trans hsame.nextKeymap_eq, fun j => (hput.table_eq j).trans (hsame.table_eq j)⟩
      · have hput := sameTables_modify r.1 id (fun k => { k with inverseTable := k.inverseTable.insert value r.2 })
          fun _ => rfl
        exact ⟨hput.nextKeymap_eq.trans hsame.nextKeymap_eq, fun j => (hput.table_eq j).trans (hsame.table_eq j)⟩
      · exact hsame

theorem sameTables_storeInverse (s : State) (keysym : TableKey) (id : ℕ) (value : Value) :
    SameTables s (s.storeInverse keysym id value).1 := by
  rw [State.storeInverse]
  cases (s.keymaps id).inverseTable.lookup value with
  | none => exact sameTables_modify s id (fun k => { k with inverseTable := k.inverseTable.insert value _ }) fun _ => rfl
  | some keys =>
    cases keys with
    | atom a =>
      have hput := sameTables_modify (s.cons a (.atom (some keysym))) id
        (fun k => { k with inverseTable := k.inverseTable.insert value (.cons s.nextCons) }) fun _ => rfl
      exact ⟨hput.nextKeymap_eq, hput.table_eq⟩
    | cons x =>
      simp only
      cases s.lastCons s.nextCons x with
      | none => exact ⟨rfl, fun _ => rfl⟩
      | some r => exact ⟨rfl, fun _ => rfl⟩

structure Rebound (s t : State) (id : ℕ) (tk : TableKey) (v : Value) : Prop where
  nextKeymap_eq : t.nextKeymap = s.nextKeymap
  gethash : ∀ j tk', t.gethash j tk' = if j = id ∧ tk' = tk then v else s.gethash j tk'

namespace Rebound

theorem of_lookup {f : Keymap → Keymap} {new : Option Value} (s : State) (id : ℕ) (tk : TableKey)
    (hf : (fun tk => (f (s.keymaps id)).table.lookup tk) =
      Function.update (fun tk => (s.keymaps id).table.lookup tk) tk new) :
    Rebound s (s.modify id f) id tk (new.getD .nil) := by
  refine ⟨rfl, fun j tk' => ?_⟩
  rw [gethash_eq, gethash_eq]
  by_cases hj : j = id
  · subst hj
    rw [modify_self, congrFun hf tk', Function.update_apply]
    by_cases htk : tk' = tk
    · rw [if_pos htk, if_pos ⟨rfl, htk⟩]
    · rw [if_neg htk, if_neg fun hand => htk hand.2]
  · rw [modify_of_ne s hj, if_neg fun hand => hj hand.1]

theorem of_sameTables (h' : Rebound t u i tk v) (h : SameTables s t) : Rebound s u i tk v where
  nextKeymap_eq := h'.nextKeymap_eq.trans h.nextKeymap_eq
  gethash j tk' := by rw [h'.gethash, h.gethash]

theorem trans_sameTables (h : Rebound s t i tk v) (h' : SameTables t u) : Rebound s u i tk v where
  nextKeymap_eq := h'.nextKeymap_eq.trans h.nextKeymap_eq
  gethash j tk' := by rw [h'.gethash, h.gethash]

end Rebound

theorem rebound_keymapStoreInternal {keysym : TableKey} (h : (env.keymapStoreInternal fuel s keysym i definition).2 = .done) :
    Rebound s (env.keymapStoreInternal fuel s keysym i definition).1 i keysym definition := by
  rw [Lisp.keymapStoreInternal] at h ⊢
  by_cases hsame : s.gethash i keysym = definition
  · simp only [if_pos hsame]
    refine ⟨rfl, fun j tk' => ?_⟩
    split_ifs with hand
    · rw [hand.1, hand.2, hsame]
    · rfl
  · simp only [if_neg hsame, Result.andThen] at h ⊢
    have hcheck := checked env fuel s definition i
    generalize env.checkKeymapDefinitionLoop fuel s definition i = r at h hcheck ⊢
    have hchecked : SameTables s r.1 := ⟨by rw [hcheck.caches.rest_eq], hcheck.caches.table_eq⟩
    by_cases hdone : r.2 = .done
    · simp only [if_pos hdone] at h ⊢
      have hdeleted : SameTables s (if s.gethash i keysym = .nil then (r.1, .done)
          else r.1.deleteInverse keysym i (s.gethash i keysym) : Result).1 := by
        split_ifs
        · exact hchecked
        · have hdelete := sameTables_deleteInverse r.1 keysym i (s.gethash i keysym)
          exact ⟨hdelete.nextKeymap_eq.trans hchecked.nextKeymap_eq, fun j => (hdelete.table_eq j).trans (hchecked.table_eq j)⟩
      generalize (if s.gethash i keysym = .nil then (r.1, .done)
        else r.1.deleteInverse keysym i (s.gethash i keysym) : Result) = q at h hdeleted ⊢
      by_cases hdone' : q.2 = .done
      · simp only [if_pos hdone'] at h ⊢
        by_cases hnil : definition = .nil
        · subst hnil
          rw [if_pos rfl]
          have herase := Rebound.of_lookup (f := fun k => { k with table := k.table.erase keysym }) q.1 i keysym
            (lookup_erase_eq _ _)
          exact herase.of_sameTables hdeleted
        · rw [if_neg hnil]
          have hinsert := Rebound.of_lookup (f := fun k => { k with table := k.table.insert keysym definition }) q.1 i keysym
            (lookup_insert_eq _ _ _)
          exact (hinsert.of_sameTables hdeleted).trans_sameTables (sameTables_storeInverse _ _ _ _)
      · rw [if_neg hdone'] at h
        exact absurd h hdone'
    · rw [if_neg hdone] at h
      exact absurd h hdone

/-! ### Steps on the way of a word -/

theorem gethash_makeKeymap (s : State) (j : ℕ) (tk : TableKey) :
    s.makeKeymap.gethash j tk = if j = s.nextKeymap then .nil else s.gethash j tk := by
  rw [gethash_eq, gethash_eq, State.makeKeymap]
  by_cases hj : j = s.nextKeymap
  · subst hj
    simp only [if_pos, Function.update_self]
    rfl
  · simp only [if_neg hj, Function.update_of_ne hj]

/-- The word of a node. -/
abbrev Finds (env : Lisp) (s : State) (root : ℕ) (p : List TableKey) (i : ℕ) : Prop := (env.trie s).find root p = .node i

theorem Rooted.addr_of_finds (h : Rooted env s root addr) (hfind : Finds env s root p i) : addr i = some p :=
  h.addressed.find h.root hfind

/-- From one state to another, nodes are made on the way of a word only. -/
structure Steps (env : Lisp) (s t : State) (root : ℕ) (addr addr' : ℕ → Option (List TableKey)) (p : List TableKey) :
    Prop where
  rooted : Rooted env t root addr'
  next_le : s.nextKeymap ≤ t.nextKeymap
  prepared : Prepared ((env.trie s).find root) ((env.trie t).find root) p
  outside : ∀ c < s.nextKeymap, addr c = none → addr' c = none ∧ ∀ tk, t.gethash c tk = s.gethash c tk

theorem Rooted.steps (h : Rooted env s root addr) (p : List TableKey) : Steps env s s root addr addr p :=
  ⟨h, le_refl _, Prepared.refl _ p, fun _ _ hc => ⟨hc, fun _ => rfl⟩⟩

theorem Steps.trans (h : Steps env s t root addr addr' p) (h' : Steps env t u root addr' addr'' q) (hp : p <+: q) :
    Steps env s u root addr addr'' q where
  rooted := h'.rooted
  next_le := h.next_le.trans h'.next_le
  prepared := h.prepared.trans h'.prepared hp
  outside c hc hnone := by
    obtain ⟨hnone', hsame⟩ := h.outside c hc hnone
    obtain ⟨hnone'', hsame'⟩ := h'.outside c (hc.trans_le h.next_le) hnone'
    exact ⟨hnone'', fun tk => (hsame' tk).trans (hsame tk)⟩

theorem Rooted.congr (h : Rooted env s root addr) (hle : s.nextKeymap ≤ t.nextKeymap)
    (hsame : ∀ j b tk, addr j = some b → t.gethash j tk = s.gethash j tk) :
    Rooted env t root addr ∧ (env.trie t).find root = (env.trie s).find root := by
  have htrie (j : ℕ) (b : List TableKey) (tk : TableKey) (hj : addr j = some b) : env.trie t j tk = env.trie s j tk :=
    congrArg env.entry (hsame j b tk hj)
  refine ⟨⟨h.root, fun j b tk c hj hnode => ?_, fun j b hj => (h.made j b hj).trans_le hle, fun j b m hj => ?_,
    fun j b tk c hj hnode => ?_⟩, ?_⟩
  · rw [htrie j b tk hj] at hnode
    exact h.addressed j b tk c hj hnode
  · rw [hsame j b _ hj]
    exact h.slot j b m hj
  · rw [htrie j b tk hj] at hnode
    rw [hsame j b tk hj]
    exact h.node j b tk c hj hnode
  · funext q
    exact Trie.find_congr h.addressed htrie h.root q

theorem Rooted.link (h : Rooted env s root addr) (hfind : Finds env s root p i) (hle : s.nextKeymap ≤ t.nextKeymap)
    (hold : env.trie s i tk = .empty) (hc : addr c = none) (hmade : c < t.nextKeymap)
    (hempty : ∀ tk', t.gethash c tk' = .nil) (hnew : t.gethash i tk = .keymap c)
    (hsame : ∀ j tk', j ≠ c → ¬ (j = i ∧ tk' = tk) → j < s.nextKeymap → t.gethash j tk' = s.gethash j tk') :
    ∃ addr', Rooted env t root addr' ∧ Prepared ((env.trie s).find root) ((env.trie t).find root) (p ++ [tk]) ∧
      Finds env t root (p ++ [tk]) c ∧ ∀ c' < s.nextKeymap, c' ≠ c → addr c' = none →
        addr' c' = none ∧ ∀ tk', t.gethash c' tk' = s.gethash c' tk' := by
  have hi := h.addr_of_finds hfind
  have hne {j : ℕ} {b : List TableKey} (hj : addr j = some b) : j ≠ c := by
    rintro rfl
    exact Option.some_ne_none b (hj.symm.trans hc)
  have hadr {j : ℕ} {b : List TableKey} (hj : addr j = some b) :
      Function.update addr c (some (p ++ [tk])) j = some b := (Function.update_of_ne (hne hj) _ _).trans hj
  have hentry (j : ℕ) (b : List TableKey) (tk' : TableKey) (hj : addr j = some b) (hnot : ¬ (j = i ∧ tk' = tk)) :
      t.gethash j tk' = s.gethash j tk' := hsame j tk' (hne hj) hnot (h.made j b hj)
  have hagrees : Trie.AgreesBut (env.trie s) (env.trie t) addr i tk := fun j b tk' hj hnot =>
    congrArg env.entry (hentry j b tk' hj hnot)
  have hnode : env.trie t i tk = .node c := congrArg env.entry hnew
  obtain ⟨hfinds, hprepared⟩ := hagrees.prepared h.addressed h.root hfind hold hnode fun tk' =>
    congrArg env.entry (hempty tk')
  have hadr' {j : ℕ} {b : List TableKey} (hj : Function.update addr c (some (p ++ [tk])) j = some b) (hjc : j ≠ c) :
      addr j = some b := (Function.update_of_ne hjc _ _).symm.trans hj
  have hunbound (tk' : TableKey) (c' : ℕ) : env.trie t c tk' ≠ .node c' := by
    rw [Lisp.trie, hempty]
    exact fun heq => by cases heq
  refine ⟨Function.update addr c (some (p ++ [tk])), ⟨hadr h.root, fun j b tk' c' hj hnode' => ?_, fun j b hj => ?_,
    fun j b m hj => ?_, fun j b tk' c' hj hnode' => ?_⟩, hprepared, hfinds, fun c' hlt hne' hnone => ⟨?_, fun tk' => ?_⟩⟩
  · by_cases hjc : j = c
    · exact absurd (hjc ▸ hnode') (hunbound tk' c')
    · have hword := hadr' hj hjc
      by_cases hand : j = i ∧ tk' = tk
      · obtain ⟨rfl, rfl⟩ := hand
        obtain rfl := Entry.node.inj (hnode.symm.trans hnode')
        obtain rfl := Option.some.inj (hi.symm.trans hword)
        exact Function.update_self _ _ _
      · rw [hagrees j b tk' hword hand] at hnode'
        exact hadr (h.addressed j b tk' c' hword hnode')
  · by_cases hjc : j = c
    · exact hjc ▸ hmade
    · exact (h.made j b (hadr' hj hjc)).trans_le hle
  · by_cases hjc : j = c
    · exact Or.inl (hjc ▸ hempty _)
    · have hj := hadr' hj hjc
      by_cases hand : j = i ∧ TableKey.modifiers m = tk
      · rw [hand.1, hand.2]
        exact Or.inr ⟨c, hnew⟩
      · rw [hentry j b _ hj hand]
        exact h.slot j b m hj
  · by_cases hjc : j = c
    · exact absurd (hjc ▸ hnode') (hunbound tk' c')
    · have hj := hadr' hj hjc
      by_cases hand : j = i ∧ tk' = tk
      · obtain ⟨rfl, rfl⟩ := hand
        obtain rfl := Entry.node.inj (hnode.symm.trans hnode')
        exact hnew
      · rw [hagrees j b tk' hj hand] at hnode'
        rw [hentry j b tk' hj hand]
        exact h.node j b tk' c' hj hnode'
  · exact (Function.update_of_ne hne' _ _).trans hnone
  · refine hsame c' tk' hne' (fun hand => ?_) hlt
    rw [hand.1, hi] at hnone
    cases hnone

theorem Rooted.rebind (h : Rooted env s root addr) (hfind : Finds env s root p i) {k : Keysym}
    (hbound : Rebound s t i (.keysym k) v) (hv : ∀ c, env.entry v ≠ .node c) {F : List TableKey → Found Value}
    (hprep : Prepared F ((env.trie s).find root) q) (hq : q <+: p ++ [.keysym k]) :
    Rooted env t root addr ∧ Inserted F ((env.trie t).find root) (p ++ [.keysym k]) (env.entry v) := by
  have hnew : env.trie t i (.keysym k) = env.entry v := by
    rw [Lisp.trie, hbound.gethash, if_pos ⟨rfl, rfl⟩]
  have hother (j : ℕ) (tk' : TableKey) (hnot : ¬ (j = i ∧ tk' = .keysym k)) : t.gethash j tk' = s.gethash j tk' := by
    rw [hbound.gethash, if_neg hnot]
  have hnode (j : ℕ) (tk' : TableKey) (c' : ℕ) (hnode : env.trie t j tk' = .node c') : ¬ (j = i ∧ tk' = .keysym k) := by
    rintro ⟨rfl, rfl⟩
    exact hv c' (hnew.symm.trans hnode)
  have hagrees : Trie.AgreesBut (env.trie s) (env.trie t) addr i (.keysym k) := fun j b tk' _ hnot =>
    congrArg env.entry (hother j tk' hnot)
  refine ⟨⟨h.root, fun j b tk' c' hj hnode' => ?_, fun j b hj => ?_, fun j b m hj => ?_, fun j b tk' c' hj hnode' => ?_⟩, ?_⟩
  · rw [hagrees j b tk' hj (hnode j tk' c' hnode')] at hnode'
    exact h.addressed j b tk' c' hj hnode'
  · rw [hbound.nextKeymap_eq]
    exact h.made j b hj
  · rw [hother j _ fun hand => TableKey.noConfusion hand.2]
    exact h.slot j b m hj
  · rw [hother j tk' (hnode j tk' c' hnode')]
    rw [hagrees j b tk' hj (hnode j tk' c' hnode')] at hnode'
    exact h.node j b tk' c' hj hnode'
  · rw [← hnew]
    refine hagrees.inserted hprep hq h.addressed h.root hfind fun c' => ?_
    rw [hnew]
    exact hv c'

theorem gethash_bucky (s : State) (i j : ℕ) (tk : TableKey) :
    (s.makeKeymap.invalidate i).gethash j tk = if j = s.nextKeymap then .nil else s.gethash j tk := by
  rw [gethash_invalidate, gethash_makeKeymap]

theorem buckySubmap_of_nil (h : s.gethash i (.modifiers m) = .nil) : env.buckySubmap fuel s i m =
    (env.keymapStoreInternal fuel (s.makeKeymap.invalidate i) (.modifiers m) i (.keymap s.nextKeymap), s.nextKeymap) := by
  rw [Lisp.buckySubmap, h]

theorem buckySubmap_of_keymap (h : s.gethash i (.modifiers m) = .keymap c) :
    env.buckySubmap fuel s i m = ((s, .done), c) := by
  rw [Lisp.buckySubmap, h]

theorem Rooted.buckySubmap (h : Rooted env s root addr) (hfind : Finds env s root p i)
    (hdone : (env.buckySubmap fuel s i m).1.2 = .done) :
    ∃ addr', Steps env s (env.buckySubmap fuel s i m).1.1 root addr addr' (p ++ [.modifiers m]) ∧
      Finds env (env.buckySubmap fuel s i m).1.1 root (p ++ [.modifiers m]) (env.buckySubmap fuel s i m).2 := by
  have hi := h.addr_of_finds hfind
  have hmade := h.made i p hi
  rcases h.slot i p m hi with hnil | ⟨c, hc⟩
  · rw [buckySubmap_of_nil hnil] at hdone ⊢
    have hbound := rebound_keymapStoreInternal hdone
    generalize env.keymapStoreInternal fuel (s.makeKeymap.invalidate i) (.modifiers m) i (.keymap s.nextKeymap) = r
      at hbound ⊢
    have hnext : r.1.nextKeymap = s.nextKeymap + 1 := hbound.nextKeymap_eq
    have hgethash (j : ℕ) (tk : TableKey) : r.1.gethash j tk = if j = i ∧ tk = .modifiers m then .keymap s.nextKeymap
        else if j = s.nextKeymap then .nil else s.gethash j tk := by
      rw [hbound.gethash, gethash_bucky]
    have hfresh : addr s.nextKeymap = none := by
      cases haddr : addr s.nextKeymap with
      | none => rfl
      | some b => exact absurd (h.made _ b haddr) (Nat.lt_irrefl _)
    have hold : env.trie s i (.modifiers m) = .empty := by
      rw [Lisp.trie, hnil]
      rfl
    obtain ⟨addr', hrooted, hprepared, hfinds, houtside⟩ := @Rooted.link env s r.1 root i s.nextKeymap addr p (.modifiers m) h
      hfind (by rw [hnext]; exact Nat.le_succ _) hold hfresh (by rw [hnext]; exact Nat.lt_succ_self _)
      (fun tk' => by rw [hgethash, if_neg fun hand => Nat.ne_of_gt hmade hand.1, if_pos rfl])
      (by rw [hgethash, if_pos ⟨rfl, rfl⟩]) fun j tk' hj hnot _ => by rw [hgethash, if_neg hnot, if_neg hj]
    refine ⟨addr', ⟨hrooted, by rw [hnext]; exact Nat.le_succ _, hprepared, fun c hlt hnone => ?_⟩, hfinds⟩
    exact houtside c hlt (Nat.ne_of_lt hlt) hnone
  · rw [buckySubmap_of_keymap hc]
    refine ⟨addr, h.steps _, ?_⟩
    rw [Finds, Trie.find_append hfind, Trie.find_cons, Lisp.trie, hc]
    rfl

theorem Rooted.stage (h : Rooted env s root addr) (fuel : ℕ) (hfind : Finds env s root p i) (b : Prop) [Decidable b]
    (hdone : (if b then env.buckySubmap fuel s i m else ((s, .done), i)).1.2 = .done) :
    let r := if b then env.buckySubmap fuel s i m else ((s, .done), i)
    ∃ addr', Steps env s r.1.1 root addr addr' (p ++ if b then [.modifiers m] else []) ∧
      Finds env r.1.1 root (p ++ if b then [.modifiers m] else []) r.2 := by
  by_cases hb : b
  · simp only [if_pos hb] at hdone ⊢
    exact h.buckySubmap hfind hdone
  · simp only [if_neg hb, List.append_nil]
    exact ⟨addr, h.steps p, hfind⟩

theorem Rooted.keymapStore (h : Rooted env s root addr) (hfind : Finds env s root p i)
    (hdone : (env.keymapStore fuel s i key v).2 = .done) :
    ∃ t addr' k, Steps env s t root addr addr' (p ++ key.modifiers.path) ∧ Finds env t root (p ++ key.modifiers.path) k ∧
      Rebound t (env.keymapStore fuel s i key v).1 k (.keysym key.keysym.fold) v := by
  have hmeta := h.stage (m := .onlyMeta) fuel hfind (key.modifiers.modMeta = true)
  rw [Lisp.keymapStore] at hdone ⊢
  simp only at hdone ⊢ hmeta
  generalize (if key.modifiers.modMeta = true then env.buckySubmap fuel s i .onlyMeta else ((s, .done), i)) = r
    at hmeta hdone ⊢
  simp only [Result.andThen] at hdone ⊢
  by_cases hr : r.1.2 = .done
  · simp only [if_pos hr] at hdone ⊢
    obtain ⟨addr', hsteps, hfinds⟩ := hmeta hr
    have hmods := hsteps.rooted.stage (m := key.modifiers.sansMeta) fuel hfinds (key.modifiers.sansMeta ≠ .none)
    simp only at hmods
    generalize (if key.modifiers.sansMeta ≠ .none then env.buckySubmap fuel r.1.1 r.2 key.modifiers.sansMeta
      else ((r.1.1, .done), r.2)) = q at hmods hdone ⊢
    by_cases hq : q.1.2 = .done
    · simp only [if_pos hq] at hdone ⊢
      obtain ⟨addr'', hsteps', hfinds'⟩ := hmods hq
      rw [List.append_assoc] at hsteps' hfinds'
      have hword : p ++ (if key.modifiers.modMeta = true then [.modifiers .onlyMeta] else []) <+:
          p ++ key.modifiers.path := (List.prefix_append_right_inj p).mpr (List.prefix_append _ _)
      refine ⟨q.1.1, addr'', q.2, hsteps.trans hsteps' hword, hfinds', ?_⟩
      exact (rebound_keymapStoreInternal hdone).of_sameTables (sameTables_modify q.1.1 q.2 _ fun _ => rfl)
    · rw [if_neg hq] at hdone
      exact absurd hdone hq
  · rw [if_neg hr] at hdone
    exact absurd hdone hr

/-! ### Defining -/

theorem stored_eq_ok {r : Result} (h : r.stored = .ok t) : r.2 = .done ∧ r.1 = t := by
  rw [Result.stored] at h
  split_ifs at h with hdone
  exact ⟨hdone, Except.ok.inj h⟩

theorem Rooted.find_key (h : Rooted env s root addr) (hfind : Finds env s root p i) (key : KeyData) :
    (env.trie s).find root (p ++ key.path) =
      (env.entry (s.keymapLookupDirectly i key)).follow (env.trie s).find [] := by
  rw [Trie.find_append hfind, ← List.append_nil key.path, h.find_path (h.addr_of_finds hfind)]

theorem Rooted.newPrefix (h : Rooted env s root addr) (hfind : Finds env s root p i)
    (hnil : s.keymapLookup1 i key = .nil)
    (hdone : (env.keymapStore fuel s.makeKeymap i key (.keymap s.nextKeymap)).2 = .done) :
    ∃ addr', Steps env s (env.keymapStore fuel s.makeKeymap i key (.keymap s.nextKeymap)).1 root addr addr'
      (p ++ key.path) ∧
        Finds env (env.keymapStore fuel s.makeKeymap i key (.keymap s.nextKeymap)).1 root (p ++ key.path) s.nextKeymap := by
  have hmade (j : ℕ) (b : List TableKey) (hj : addr j = some b) : j ≠ s.nextKeymap := Nat.ne_of_lt (h.made j b hj)
  have hnew : addr s.nextKeymap = none := by
    cases haddr : addr s.nextKeymap with
    | none => rfl
    | some b => exact absurd rfl (hmade _ b haddr)
  obtain ⟨hrooted, hsame⟩ := h.congr (t := s.makeKeymap) (Nat.le_succ _) fun j b tk hj => by
    rw [gethash_makeKeymap, if_neg (hmade j b hj)]
  have hfind' : Finds env s.makeKeymap root p i := (congrFun hsame p).trans hfind
  obtain ⟨t, addr', k, hsteps, hfinds, hbound⟩ := hrooted.keymapStore hfind' hdone
  generalize env.keymapStore fuel s.makeKeymap i key (.keymap s.nextKeymap) = r at hbound ⊢
  obtain ⟨hnone, hempty⟩ := hsteps.outside s.nextKeymap (Nat.lt_succ_self _) hnew
  have hword : p ++ key.modifiers.path ++ [.keysym key.keysym.fold] = p ++ key.path := List.append_assoc _ _ _
  have hk := hsteps.rooted.addr_of_finds hfinds
  have hkne : k ≠ s.nextKeymap := by
    rintro rfl
    exact Option.some_ne_none _ (hk.symm.trans hnone)
  have hnext : r.1.nextKeymap = t.nextKeymap := hbound.nextKeymap_eq
  -- nothing was bound at the end of the word
  have hold : env.trie t k (.keysym key.keysym.fold) = .empty := by
    have hunbound : (env.trie s.makeKeymap).find root (p ++ key.path) = .unbound := by
      rw [congrFun hsame, h.find_key hfind, entry_empty hnil]
      rfl
    have hfound : (env.trie t).find root (p ++ key.path) = .unbound := by
      rcases hsteps.prepared (p ++ key.path) with heq | ⟨-, hpre, -⟩
      · exact heq.trans hunbound
      · rw [← hword] at hpre
        exact absurd hpre (Trie.not_concat_le_self _ _)
    rw [← hword, Trie.find_append hfinds, Trie.find_cons] at hfound
    cases hentry : env.trie t k (.keysym key.keysym.fold) with
    | empty => rfl
    | node c =>
      rw [hentry] at hfound
      cases hfound
    | leaf x =>
      rw [hentry] at hfound
      cases hfound
  obtain ⟨addr'', hrooted', hprepared, hfinds', houtside⟩ := hsteps.rooted.link (t := r.1) hfinds hnext.ge hold hnone
    (hnext ▸ hsteps.next_le) (fun tk' => by
      rw [hbound.gethash, if_neg fun hand => hkne hand.1.symm, hempty, gethash_makeKeymap, if_pos rfl])
    (by rw [hbound.gethash, if_pos ⟨rfl, rfl⟩]) fun j tk' _ hnot _ => by rw [hbound.gethash, if_neg hnot]
  rw [hword] at hprepared hfinds'
  refine ⟨addr'', ⟨hrooted', (Nat.le_succ _).trans (hsteps.next_le.trans hnext.ge), ?_, fun c hlt hnone' => ?_⟩, hfinds'⟩
  · have hprepared' := hsteps.prepared.trans hprepared (hword ▸ List.prefix_append _ _)
    rwa [hsame] at hprepared'
  · obtain ⟨hnone'', hgethash⟩ := hsteps.outside c (Nat.lt_succ_of_lt hlt) hnone'
    obtain ⟨hnone₃, hgethash'⟩ := houtside c ((Nat.lt_succ_of_lt hlt).trans_le hsteps.next_le) (Nat.ne_of_lt hlt) hnone''
    refine ⟨hnone₃, fun tk => ?_⟩
    rw [hgethash', hgethash, gethash_makeKeymap, if_neg (Nat.ne_of_lt hlt)]

theorem Rooted.definePrefix (h : Rooted env s root addr) (hfind : Finds env s root p i) {cmd : Value}
    (hok : env.definePrefix fuel s i key = .ok (t, cmd)) (hmap : env.getKeymap cmd = some c) :
    ∃ addr', Steps env s t root addr addr' (p ++ key.path) ∧ Finds env t root (p ++ key.path) c := by
  rw [Lisp.definePrefix] at hok
  by_cases hnil : s.keymapLookup1 i key = .nil
  · simp only [if_pos hnil] at hok
    cases hstored : (env.keymapStore fuel s.makeKeymap i key (.keymap s.nextKeymap)).stored with
    | error e =>
      rw [hstored] at hok
      cases hok
    | ok u =>
      rw [hstored] at hok
      obtain ⟨hdone, hstate⟩ := stored_eq_ok hstored
      obtain ⟨rfl, rfl⟩ := Prod.mk.inj (Except.ok.inj hok)
      obtain rfl := Option.some.inj hmap
      rw [← hstate]
      exact h.newPrefix hfind hnil hdone
  · simp only [if_neg hnil] at hok
    obtain ⟨rfl, rfl⟩ := Prod.mk.inj (Except.ok.inj hok)
    refine ⟨addr, h.steps _, ?_⟩
    have hentry : env.entry (s.keymapLookupDirectly i key) = .node c := by
      rw [State.keymapLookup1] at hnil hmap
      rw [Lisp.entry, if_neg hnil, hmap]
    rw [Finds, h.find_key hfind, hentry]
    rfl

theorem Rooted.defineKey (h : Rooted env s root addr) (hfind : Finds env s root p i) (hne : keys ≠ [])
    (hv : ∀ c, env.entry definition ≠ .node c) (hok : env.defineKey mpc fuel s i keys definition = .ok t) :
    ∃ addr', Rooted env t root addr' ∧
      Inserted ((env.trie s).find root) ((env.trie t).find root) (p ++ path keys) (env.entry definition) := by
  induction keys generalizing s i p addr with
  | nil => exact absurd rfl hne
  | cons key keys ih =>
    rw [Lisp.defineKey] at hok
    cases hensure : (if key.modifiers.modMeta = true then env.ensureMetaPrefixCharKeymapp mpc s i else none) with
    | some mpcBinding =>
      rw [hensure] at hok
      cases hok
    | none =>
      rw [hensure] at hok
      simp only at hok
      by_cases hnil : keys = []
      · subst hnil
        rw [if_pos rfl] at hok
        obtain ⟨hdone, rfl⟩ := stored_eq_ok hok
        obtain ⟨u, addr', k, hsteps, hfinds, hbound⟩ := h.keymapStore hfind hdone
        have hword : p ++ path [key] = p ++ key.modifiers.path ++ [.keysym key.keysym.fold] := by
          rw [path_singleton, KeyData.path, List.append_assoc]
        rw [hword]
        exact ⟨addr', hsteps.rooted.rebind hfinds hbound hv hsteps.prepared (List.prefix_append _ _)⟩
      · rw [if_neg hnil] at hok
        cases hstart : env.definePrefix fuel s i key with
        | error e =>
          rw [hstart] at hok
          cases hok
        | ok r =>
          obtain ⟨u, cmd⟩ := r
          rw [hstart] at hok
          cases hmap : env.getKeymap cmd with
          | none =>
            simp only [hmap] at hok
            cases hok
          | some c =>
            simp only [hmap] at hok
            obtain ⟨addr', hsteps, hfinds⟩ := h.definePrefix hfind hstart hmap
            obtain ⟨addr'', hrooted, hinserted⟩ := ih hsteps.rooted hfinds hnil hok
            rw [path_cons, ← List.append_assoc]
            exact ⟨addr'', hrooted, hsteps.prepared.inserted (List.prefix_append _ _) hinserted⟩

end XEmacs.Keymaps
