import XEmacs.Table.RangeTableLookup

/-! The canonical form of range tables. `put_range_table` keeps it but where an existing range
lies in the new one, ends where that ends and has another value: the loop shrinks such an
entry to an empty one instead of deleting it. -/

namespace XEmacs.Table.RangeTable

open Lib Lib.Interval

variable {α : Type*} {es rest A B : List (RangeTableEntry α)} {first last : ℤ} {v : α}

theorem below_shape (first : ℤ) (h : Ordered rest) : below first rest = [] ∨
    ∃ L e R, rest = L ++ e :: R ∧ e.first < first ∧
      below first rest = L ++ [{ e with last := min e.last first }] := by
  induction rest with
  | nil => exact .inl rfl
  | cons e rest ih =>
    obtain ⟨hle, hrest, hbefore⟩ := ordered_cons.mp h
    by_cases hlt : e.first < first
    · right
      rw [below_cons_of_lt hlt]
      rcases ih hrest with hnil | ⟨L, x, R, rfl, hx, heq⟩
      · exact ⟨[], e, rest, rfl, hlt, by rw [hnil]; rfl⟩
      · have hex := hbefore x (by simp)
        have hmin : min e.last first = e.last := min_eq_left (by omega)
        exact ⟨e :: L, x, R, rfl, hx, by rw [heq, hmin]; rfl⟩
    · left
      refine below_eq_nil fun x hx => ?_
      rcases List.mem_cons.mp hx with rfl | hx
      · exact Int.not_lt.mp hlt
      · have hex := hbefore x hx
        omega

theorem above_shape (hlt : first < last) (h : Ordered rest) : above first last rest = [] ∨
    ∃ L e R, rest = L ++ e :: R ∧ (if e.first < first then last < e.last else last ≤ e.last) ∧
      above first last rest = { e with first := max e.first last } :: R := by
  induction rest with
  | nil => exact .inl rfl
  | cons e rest ih =>
    obtain ⟨hle, hrest, hbefore⟩ := ordered_cons.mp h
    by_cases hkeep : if e.first < first then last < e.last else last ≤ e.last
    · right
      have hlast : last ≤ e.last := by
        split_ifs at hkeep <;> omega
      refine ⟨[], e, rest, rfl, hkeep, ?_⟩
      rw [above_cons_of_pos hkeep, above_eq_self hrest hlt fun x hx => le_trans hlast (hbefore x hx)]
    · rw [above_cons_of_neg hkeep]
      rcases ih hrest with hnil | ⟨L, x, R, rfl, hx, heq⟩
      · exact .inl hnil
      · exact .inr ⟨e :: L, x, R, rfl, hx, heq⟩

theorem Cut.canonical_before (hcut : Cut es first last A B) (h : Canonical es) : Canonical A := by
  obtain ⟨pre, rest, rfl, hpre, rfl, rfl⟩ := hcut.split
  obtain ⟨hcpre, hcrest⟩ := h.of_append
  rcases below_shape first hcrest.toOrdered with hnil | ⟨L, e, R, rfl, he, heq⟩
  · rw [hnil, List.append_nil]
    exact hcpre
  · rw [heq, ← List.append_assoc]
    have hsplit : pre ++ (L ++ e :: R) = (pre ++ L ++ [e]) ++ R := by simp
    rw [hsplit] at h
    refine h.of_append.1.truncate_last (lt_min ?_ he)
    exact h.nonempty e (by simp)

theorem Cut.canonical_after (hcut : Cut es first last A B) (hlt : first < last) (h : Canonical es) :
    B = [] ∨ ∃ e R, B = { e with first := max e.first last } :: R ∧ e ∈ es ∧ Canonical (e :: R) ∧
      (if e.first < first then last < e.last else last ≤ e.last) := by
  obtain ⟨pre, rest, rfl, hpre, rfl, rfl⟩ := hcut.split
  obtain ⟨hcpre, hcrest⟩ := h.of_append
  rcases above_shape hlt hcrest.toOrdered with hnil | ⟨L, e, R, rfl, he, heq⟩
  · exact .inl hnil
  · exact .inr ⟨e, R, heq, by simp, hcrest.of_append.2, he⟩

theorem canonical_max {e : RangeTableEntry α} {R : List (RangeTableEntry α)} (h : Canonical (e :: R))
    (hkeep : if e.first < first then last < e.last else last ≤ e.last)
    (hend : first ≤ e.first → e.last ≠ last) : Canonical ({ e with first := max e.first last } :: R) := by
  refine h.truncate_first (max_lt (h.nonempty e List.mem_cons_self) ?_)
  split_ifs at hkeep with hfirst
  · exact hkeep
  · exact lt_of_le_of_ne hkeep fun heq => hend (Int.not_lt.mp hfirst) heq.symm

variable [DecidableEq α]

theorem putEntries_none_canonical (h : Canonical es)
    (hend : ∀ e ∈ es, first ≤ e.first → e.last ≠ last) : Canonical (putEntries es first last none) := by
  by_cases hlt : first < last
  · obtain ⟨A, B, hcut, heq⟩ := putEntries_none h.toOrdered hlt
    obtain ⟨-, -, hleA, hleB⟩ := hcut.ordered h.toOrdered
    have hB : Canonical B := by
      rcases hcut.canonical_after hlt h with rfl | ⟨e, R, rfl, he, hc, hkeep⟩
      · exact .nil
      · exact canonical_max hc hkeep (hend e he)
    rw [heq]
    refine (hcut.canonical_before h).append hB (fun a ha b hb => ?_) fun a ha b hb htouch => ?_
    · have ha' := hleA a ha
      have hb' := hleB b hb
      omega
    · have ha' := hleA a (List.mem_of_getLast? ha)
      have hb' := hleB b (List.mem_of_mem_head? hb)
      omega
  · rwa [putEntries, if_pos (Int.not_lt.mp hlt)]

theorem putEntries_some_canonical (h : Canonical es)
    (hend : ∀ e ∈ es, first ≤ e.first → e.last = last → e.val = v) :
    Canonical (putEntries es first last (some v)) := by
  by_cases hlt : first < last
  · obtain ⟨A, B, A₀, B₀, f, l, hcut, heq, hbefore, hafter⟩ := putEntries_some h.toOrdered hlt v
    obtain ⟨-, -, hleA, hleB⟩ := hcut.ordered h.toOrdered
    have hA := hcut.canonical_before h
    -- what the new entry has not taken over
    have hA₀ : Canonical A₀ ∧ f ≤ first ∧ (∀ a ∈ A₀, a.last ≤ f) ∧
        ∀ a, A₀.getLast? = some a → a.last = f → a.val ≠ v := by
      rcases hbefore with ⟨rfl, rfl, hne⟩ | rfl
      · exact ⟨hA, le_refl _, hleA, hne⟩
      · obtain ⟨hA₀, -⟩ := hA.of_append
        obtain ⟨-, hlast, hle⟩ := ordered_append.mp hA.toOrdered
        refine ⟨hA₀, hlast.le ⟨f, first, v⟩ (by simp), fun a ha => hle a ha ⟨f, first, v⟩ (by simp),
          fun a ha htouch => ?_⟩
        have hmem := List.mem_append_left [(⟨f, first, v⟩ : RangeTableEntry α)] (List.mem_of_getLast? ha)
        have hlastmem : (⟨f, first, v⟩ : RangeTableEntry α) ∈ A₀ ++ [⟨f, first, v⟩] := by simp
        exact hA.ne_of_touch hmem hlastmem htouch
    have hB₀ : Canonical B₀ ∧ last ≤ l ∧ (∀ b ∈ B₀, l ≤ b.first) ∧
        ∀ b, B₀.head? = some b → l = b.first → v ≠ b.val := by
      rcases hcut.canonical_after hlt h with rfl | ⟨e, R, rfl, he, hc, hkeep⟩
      · rcases hafter with ⟨rfl, rfl, -⟩ | hnil
        · exact ⟨.nil, le_refl _, by simp, by simp⟩
        · simp at hnil
      · rcases hafter with ⟨rfl, rfl, hne⟩ | heqB
        · -- an empty entry would have been of the new value, and taken over
          have hend' : first ≤ e.first → e.last ≠ l := by
            intro hfirst hlast
            have hle := h.toOrdered.le e he
            refine hne _ rfl ?_ (hend e he hfirst hlast)
            exact max_eq_right (by omega)
          refine ⟨canonical_max hc hkeep hend', le_refl _, hleB, fun b hb htouch => ?_⟩
          exact fun hval => hne b hb htouch.symm hval.symm
        · obtain ⟨hhead, rfl⟩ := List.cons_eq_cons.mp heqB
          obtain ⟨-, hlast, hval⟩ := Interval.mk.inj hhead
          obtain ⟨-, -, hbeforeR⟩ := ordered_cons.mp hc.toOrdered
          subst hlast hval
          refine ⟨hc.tail, ?_, hbeforeR, fun b hb htouch => ?_⟩
          · split_ifs at hkeep <;> omega
          · exact hc.ne_of_touch List.mem_cons_self
              (List.mem_cons_of_mem _ (List.mem_of_mem_head? hb)) htouch
    obtain ⟨hcA₀, hf, hleA₀, hneA₀⟩ := hA₀
    obtain ⟨hcB₀, hl, hleB₀, hneB₀⟩ := hB₀
    have hfl : f < l := by omega
    have hnew : Canonical ((⟨f, l, v⟩ : RangeTableEntry α) :: B₀) := hcB₀.cons hfl hleB₀ hneB₀
    rw [heq]
    refine hcA₀.append hnew (fun a ha b hb => ?_) fun a ha b hb htouch => ?_
    · have ha' := hleA₀ a ha
      rcases List.mem_cons.mp hb with rfl | hb
      · exact ha'
      · have hb' := hleB₀ b hb
        omega
    · obtain rfl := Option.some.inj hb
      exact hneA₀ a ha htouch
  · rwa [putEntries, if_pos (Int.not_lt.mp hlt)]

omit [DecidableEq α] in
theorem mapLoop_eq {σ : Type*} {f : ℤ → ℤ → α → RangeTable α × σ → RangeTable α × σ} {rt : RangeTable α}
    (hf : ∀ a b v s, (f a b v (rt, s)).1 = rt) (pre : List (RangeTableEntry α))
    {rest : List (RangeTableEntry α)} (hrt : rt.entries = pre ++ rest) {fuel : ℕ} (hfuel : rest.length ≤ fuel) (s : σ) :
    mapLoop f fuel pre.length (rt, s) = (rt, rest.foldl (fun s e =>
      (f (internalToExternalAdjustEnds rt.type e.first e.last).1
        (internalToExternalAdjustEnds rt.type e.first e.last).2 e.val (rt, s)).2) s) := by
  induction rest generalizing pre fuel s with
  | nil =>
    cases fuel with
    | zero => rfl
    | succ fuel => simp [mapLoop, hrt]
  | cons e rest ih =>
    cases fuel with
    | zero => simp at hfuel
    | succ fuel =>
      have hget : rt.entries[pre.length]? = some e := by simp [hrt]
      rw [mapLoop, hget]
      simp only
      set ends := internalToExternalAdjustEnds rt.type e.first e.last with hends
      have hstep : f ends.1 ends.2 e.val (rt, s) = (rt, (f ends.1 ends.2 e.val (rt, s)).2) :=
        Prod.ext (hf _ _ _ _) rfl
      have hrest := ih (pre ++ [e]) (by simp [hrt]) (Nat.le_of_succ_le_succ hfuel)
        (f ends.1 ends.2 e.val (rt, s)).2
      rw [List.length_append, List.length_singleton] at hrest
      rw [hstep, hrest]
      rfl

/-- The value that `get-range-table` finds, if there is one. -/
def lookup (rt : RangeTable α) (p : ℤ) : Option α := (findEntry p rt.entries).map (·.val)

/-- No stored range that lies in the given one ends where that ends, unless it has the value
that is put. -/
def KeepsEnds (rt : RangeTable α) : Call α → Prop
  | .put start finish val => ∀ e ∈ rt.entries,
      (externalToInternalAdjustEnds rt.type start finish).1 ≤ e.first →
        e.last = (externalToInternalAdjustEnds rt.type start finish).2 → e.val = val
  | .remove start finish => ∀ e ∈ rt.entries,
      (externalToInternalAdjustEnds rt.type start finish).1 ≤ e.first →
        e.last ≠ (externalToInternalAdjustEnds rt.type start finish).2
  | .clear => True

instance (rt : RangeTable α) : (call : Call α) → Decidable (KeepsEnds rt call)
  | .put .. => inferInstanceAs (Decidable (∀ e ∈ rt.entries, _ → _ → _))
  | .remove .. => inferInstanceAs (Decidable (∀ e ∈ rt.entries, _ → _ → False))
  | .clear => isTrue trivial

theorem run_entries_canonical {type : RangeTableType} {rt : RangeTable α} {calls : List (Call α)}
    (h : Run step KeepsEnds (make type) calls rt) : Canonical rt.entries := by
  refine h.invariant (I := fun rt => Canonical rt.entries) .nil fun rt call rt' hrt hok hs => ?_
  cases call with
  | put start finish val =>
    obtain rfl := Option.some.inj hs
    by_cases hle : start > finish
    · simp only [put, if_pos hle]
      exact hrt
    · simp only [put, if_neg hle]
      exact putEntries_some_canonical hrt hok
  | remove start finish =>
    obtain rfl := Option.some.inj hs
    by_cases hle : start > finish
    · simp only [put, if_pos hle]
      exact hrt
    · simp only [put, if_neg hle]
      exact putEntries_none_canonical hrt hok
  | clear =>
    obtain rfl := Option.some.inj hs
    exact .nil

omit [DecidableEq α] in
theorem rangeTableEqual_of_entries {internalEqual : α → α → Bool} (hrefl : ∀ v, internalEqual v v = true)
    {rt₁ rt₂ : RangeTable α} (h : rt₁.entries = rt₂.entries) :
    rangeTableEqual internalEqual rt₁ rt₂ = true := by
  have hzip : ∀ (l : List (RangeTableEntry α)), ∀ x ∈ l.zip l, x.1 = x.2 := by
    intro l
    induction l with
    | nil => simp
    | cons e l ih =>
      intro x hx
      rcases List.mem_cons.mp hx with rfl | hx
      · rfl
      · exact ih x hx
  simp only [rangeTableEqual, h, decide_eq_true_eq]
  refine ⟨trivial, fun x hx => ?_⟩
  rw [hzip _ x hx]
  exact ⟨rfl, rfl, hrefl _⟩

/-- What canonical entries are good for. -/
structure CanonicalTable (type : RangeTableType) (rt : RangeTable α) : Prop where
  canonical : Canonical rt.entries
  /-- a table that gives each integer the same value is `equal` -/
  equal : ∀ calls rt', Run step KeepsEnds (make type) calls rt' → (∀ p, rt.lookup p = rt'.lookup p) →
    ∀ internalEqual : α → α → Bool, (∀ v, internalEqual v v = true) →
      rangeTableEqual internalEqual rt rt' = true
  /-- a function that leaves the table alone is called once for each largest range of one value -/
  map : ∃ ranges : List (RangeTableEntry α), ranges.Nodup ∧ (∀ e, e ∈ ranges ↔ Maximal rt.lookup e) ∧
    ∀ {σ : Type} (f : ℤ → ℤ → α → RangeTable α × σ → RangeTable α × σ),
      (∀ a b v s, (f a b v (rt, s)).1 = rt) → ∀ fuel, ranges.length ≤ fuel → ∀ s,
        mapLoop f fuel 0 (rt, s) = (rt, ranges.foldl (fun s e =>
          (f (internalToExternalAdjustEnds type e.first e.last).1
            (internalToExternalAdjustEnds type e.first e.last).2 e.val (rt, s)).2) s)

/-- In a run that shrinks no entry to nothing, the table is canonical. -/
theorem run_canonical {type : RangeTableType} {rt : RangeTable α} {calls : List (Call α)}
    (h : Run step KeepsEnds (make type) calls rt) : CanonicalTable type rt := by
  have hcan := run_entries_canonical h
  have hlookup : ∀ {rt : RangeTable α}, Ordered rt.entries → rt.lookup = value rt.entries := fun hord =>
    funext fun _ => findEntry_value hord
  refine ⟨hcan, fun calls' rt' h' heq internalEqual hrefl => ?_, rt.entries, ?_, fun e => ?_, ?_⟩
  · have hcan' := run_entries_canonical h'
    rw [hlookup hcan.toOrdered, hlookup hcan'.toOrdered] at heq
    exact rangeTableEqual_of_entries hrefl (hcan.unique hcan' heq)
  · refine hcan.before.imp_of_mem fun {e e'} he _ hle heq => ?_
    have hne := hcan.nonempty e he
    rw [heq] at hle hne
    omega
  · rw [hlookup hcan.toOrdered]
    exact hcan.mem_iff_maximal
  · intro σ f hf fuel hfuel s
    have htype : rt.type = type := (run_value h).1
    rw [← htype]
    exact mapLoop_eq hf [] rfl hfuel s

theorem run_canonical_overlap :
    ∃ rt : RangeTable Char, rt.entries = [⟨0, 3, 'a'⟩, ⟨3, 4, 'b'⟩, ⟨7, 12, 'a'⟩] ∧
      CanonicalTable .startClosedEndClosed rt := by
  have hexec : (execOk step KeepsEnds (make .startClosedEndClosed)
      [.put 0 9 'a', .put 3 5 'b', .put 8 11 'a', .remove 4 6]).any
      (fun rt => decide (rt.entries = [⟨0, 3, 'a'⟩, ⟨3, 4, 'b'⟩, ⟨7, 12, 'a'⟩])) = true := by
    decide +kernel
  obtain ⟨rt, hrt, hentries⟩ := exists_run_of_execOk hexec
  exact ⟨rt, hentries, run_canonical hrt⟩

def putTwice : List (Call Char) := [.put 1 5 'a', .put 1 5 'b']

/-- The entry of the old value is left empty. -/
theorem putTwice_leaves_empty :
    ∃ rt : RangeTable Char, Run step anyStep (make .startClosedEndOpen) putTwice rt ∧
      rt.entries = [⟨1, 5, 'b'⟩, ⟨5, 5, 'a'⟩] ∧ ¬ CanonicalTable .startClosedEndOpen rt := by
  have hexec : (exec step (make .startClosedEndOpen) putTwice).any
      (fun rt => decide (rt.entries = [⟨1, 5, 'b'⟩, ⟨5, 5, 'a'⟩])) = true := by decide +kernel
  obtain ⟨rt, hrt, hentries⟩ := exists_run_of_exec hexec
  refine ⟨rt, hrt, hentries, fun h => ?_⟩
  have hempty : (5 : ℤ) < 5 := h.canonical.nonempty ⟨5, 5, 'a'⟩ (by simp [hentries])
  exact absurd hempty (by decide)

end XEmacs.Table.RangeTable
