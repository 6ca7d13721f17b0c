import XEmacs.Table.Obarray
import XEmacs.Table.HashTableMap
import XEmacs.Lisp.EqualHash
import Mathlib.Data.Nat.Bitwise

/-! Interning goes by names. `oblookup` looks where the generic functions look, so that a package
stands for a map from names to symbols, whose symbols all differ; a table that is made with a
rehash size close to 1 can fill up, and then nothing new can be interned. -/

namespace XEmacs.Table

open Text Lisp Lib Lib.Probing HashTable

variable {rep : UInt8 → ℕ} {C : Charset rep} {D : Doubles} {levels : ℕ} {test : HashTableTest (LispString rep)}
  {a b c : List (Ichar rep)}

def canonText (C : Charset rep) (text : List (Ichar rep)) : List ℕ :=
  text.map fun c => C.canoncase (C.itextIchar c)

/-- Names are equal, for `equalp` up to case. -/
def SameName (C : Charset rep) : HashTableTest (LispString rep) → List (Ichar rep) → List (Ichar rep) → Prop
  | .equalp, a, b => canonText C a = canonText C b
  | _, a, b => itextBytes a = itextBytes b

theorem SameName.refl (C : Charset rep) (test : HashTableTest (LispString rep)) (a : List (Ichar rep)) :
    SameName C test a a := by
  cases test <;> rfl

theorem SameName.symm (h : SameName C test a b) : SameName C test b a := by
  cases test <;> exact Eq.symm h

theorem SameName.trans (h : SameName C test a b) (h' : SameName C test b c) : SameName C test a c := by
  cases test <;> exact Eq.trans h h'

theorem qxetextcasecmp_iff : LispObject.qxetextcasecmp C a b = 0 ↔ canonText C a = canonText C b := by
  refine ⟨LispObject.map_canoncase_of_qxetextcasecmp, fun h => ?_⟩
  induction a generalizing b with
  | nil =>
    have hb : b = [] := List.map_eq_nil_iff.mp h.symm
    rw [hb]
    rfl
  | cons c a ih =>
    cases b with
    | nil => simp [canonText] at h
    | cons c' b =>
      simp only [canonText, List.map_cons, List.cons.injEq] at h
      rw [LispObject.qxetextcasecmp, h.1, sub_self, if_neg (by simp)]
      exact ih h.2

theorem internalEqual_strings (s s' : LispString rep) :
    LispObject.internalEqual C (levels + 1) s.obj s'.obj = some true ↔ itextBytes s.data = itextBytes s'.data := by
  rw [LispObject.internalEqual]
  split_ifs with h
  · simp only [LispString.obj, LispObject.string.injEq] at h
    simp [h.2]
  · simp [LispString.obj, LispObject.equalMethod]

theorem internalEqualp_strings (s s' : LispString rep) :
    LispObject.internalEqualp C (levels + 1) s.obj s'.obj = some true ↔ canonText C s.data = canonText C s'.data := by
  rw [← qxetextcasecmp_iff]
  unfold LispObject.internalEqualp
  split_ifs with h
  · simp only [LispString.obj, LispObject.string.injEq] at h
    rw [h.2, qxetextcasecmp_iff]
    simp
  · simp [LispString.obj, LispObject.equalMethod, LispObject.arrayType]

def IsPackageTest (test : HashTableTest (LispString rep)) : Prop := test = .equal ∨ test = .equalp

theorem equalFunction_iff (htest : IsPackageTest test) (s s' : LispString rep) :
    test.equalFunction (stringMethods C D levels) s s' = true ↔ SameName C test s.data s'.data := by
  rcases htest with rfl | rfl
  · exact (decide_eq_true_iff).trans (internalEqual_strings s s')
  · exact (decide_eq_true_iff).trans (internalEqualp_strings s s')

theorem compatible_strings (C : Charset rep) (D : Doubles) (levels : ℕ) (htest : IsPackageTest test) :
    Compatible (stringMethods C D levels) test := by
  constructor
  · intro s
    rw [equalFunction_iff htest]
    exact .refl C test s.data
  · intro s s'
    rw [equalFunction_iff htest, equalFunction_iff htest]
    exact SameName.symm
  · intro s s' s''
    rw [equalFunction_iff htest, equalFunction_iff htest, equalFunction_iff htest]
    exact SameName.trans
  · intro s s' h
    rcases htest with rfl | rfl
    · exact LispObject.internalHash_of_internalEqual (D := D) 6 (of_decide_eq_true h)
    · exact LispObject.internalHash_of_internalEqualp (D := D) 6 (of_decide_eq_true h) rfl

variable {ht : HashTable (LispString rep) ℕ}

theorem computeGoldenRatio_le {size : ℕ} (hpos : 0 < size) : computeGoldenRatio size ≤ size := by
  rw [computeGoldenRatio]
  split_ifs
  · exact hpos
  · refine Nat.floor_le_of_le ?_
    exact mul_le_of_le_one_right (Nat.cast_nonneg _) (by norm_num)

theorem signed_product {hash : UInt32} {golden size : ℕ} (hgolden : golden ≤ size) (hsize : size ≤ lastPrime) :
    (((hash.toNat * golden : ℤ).bmod (2 ^ 64)).tmod size).toNat =
      (hash.toUInt64 * UInt64.ofNat golden).toNat % size := by
  have hhash : hash.toNat < 2 ^ 32 := hash.toNat_lt
  have hlt : golden < 2 ^ 31 := lt_of_le_of_lt (hgolden.trans hsize) (by decide)
  have hprod : hash.toNat * golden < 2 ^ 63 := by
    calc hash.toNat * golden < 2 ^ 32 * 2 ^ 31 := Nat.mul_lt_mul'' hhash hlt
      _ = 2 ^ 63 := by norm_num
  have hsigned : (hash.toNat * golden : ℤ).bmod (2 ^ 64) = (hash.toNat * golden : ℕ) := by
    rw [Int.bmod_eq_of_le] <;> push_cast <;> omega
  have hunsigned : (hash.toUInt64 * UInt64.ofNat golden).toNat = hash.toNat * golden := by
    rw [UInt64.toNat_mul, UInt32.toNat_toUInt64, UInt64.toNat_ofNat', Nat.mod_eq_of_lt (show golden < 2 ^ 64 by omega),
      Nat.mod_eq_of_lt (by omega)]
  rw [hsigned, hunsigned, Int.tmod_eq_emod_of_nonneg (Int.natCast_nonneg _), ← Int.natCast_emod, Int.toNat_natCast]

theorem oblookupHome_eq (htest : IsPackageTest ht.test) (hgolden : ht.goldenRatio ≤ ht.size) (hsize : ht.size ≤ lastPrime)
    (key : LispString rep) :
    oblookupHome C ht key.data = ht.home (stringMethods C D levels) ht.test key := by
  rcases htest with h | h
  · simp only [oblookupHome, HashTable.home, h]
    exact signed_product hgolden hsize
  · simp only [oblookupHome, HashTable.home, h]
    rfl

theorem lookupMatch_iff (htest : IsPackageTest test) (key : LispString rep) (e : Htentry (LispString rep) ℕ) :
    (test.chooseForLookup (stringMethods C D levels) key).lookupMatch (stringMethods C D levels) key e = true ↔
      SameName C test e.key.data key.data := by
  rw [lookupMatch_chooseForLookup, equalFunction_iff htest]
  constructor
  · rintro (h | h)
    · rw [h]
      exact .refl C test key.data
    · exact h
  · exact .inr

theorem oblookup_eq (htest : IsPackageTest ht.test) (hgolden : ht.goldenRatio ≤ ht.size) (hsize : ht.size ≤ lastPrime)
    (key : LispString rep) : oblookup C ht key.data =
      (ht.findHtentry (stringMethods C D levels) key).map fun probe => .ok (lookupAt ht probe) := by
  have hhome : oblookupHome C ht key.data = ht.home (stringMethods C D levels) ht.test key :=
    oblookupHome_eq htest hgolden hsize key
  rw [HashTable.home, ← hashFunction_chooseForLookup, ← HashTable.home] at hhome
  rw [findHtentry, ← hhome]
  have htest' := htest
  rcases htest with h | h
  · simp only [oblookup, h]
    congr 2
    funext e
    rw [Bool.eq_iff_iff, decide_eq_true_iff, ← h, lookupMatch_iff htest', h]
    rfl
  · simp only [oblookup, h]
    congr 2
    funext e
    rw [Bool.eq_iff_iff, decide_eq_true_iff, ← h, lookupMatch_iff htest', h]
    exact qxetextcasecmp_iff

/-! ### What calls have told -/

namespace Package

variable {events mid pre post : List (Event rep)} {e : Event rep} {text n : List (Ichar rep)} {s t : ℕ}
  {symbols symbols' : List (LispSymbol rep)}

/-- No name like the text is uninterned. -/
def Stays (C : Charset rep) (test : HashTableTest (LispString rep)) (text : List (Ichar rep))
    (events : List (Event rep)) : Prop :=
  ∀ n name, Event.uninterned n name true ∈ events → ¬ SameName C test n text

/-- The symbol was returned for the name, which has not been uninterned since. -/
def Live (C : Charset rep) (test : HashTableTest (LispString rep)) (events : List (Event rep))
    (text : List (Ichar rep)) (s : ℕ) : Prop :=
  ∃ pre n mid, events = pre ++ .interned n s :: mid ∧ SameName C test n text ∧ Stays C test text mid

/-- The result of a call is what the calls before it say it should be. -/
def Explained (C : Charset rep) (test : HashTableTest (LispString rep)) (events : List (Event rep)) : Event rep → Prop
  | .interned b t => ∀ pre a s mid, events = pre ++ .interned a s :: mid →
      (s = t ↔ SameName C test a b ∧ Stays C test a mid)
  | .sought text name result => ∀ s, result = some s ↔ Live C test events text s ∧ name.admits s = true
  | .uninterned text name result => result = true ↔ ∃ s, Live C test events text s ∧ name.admits s = true

theorem Stays.congr (h : Stays C test a mid) (hab : SameName C test a b) : Stays C test b mid :=
  fun n name hmem hn => h n name hmem (hn.trans hab.symm)

theorem stays_append : Stays C test text (mid ++ [e]) ↔
    Stays C test text mid ∧ ∀ n name, e = .uninterned n name true → ¬ SameName C test n text := by
  simp only [Stays, List.mem_append, List.mem_singleton]
  grind

theorem append_split {x : Event rep} (h : events ++ [e] = pre ++ x :: post) :
    (post = [] ∧ events = pre ∧ e = x) ∨ ∃ post', post = post' ++ [e] ∧ events = pre ++ x :: post' := by
  rcases List.eq_nil_or_concat post with rfl | ⟨post', y, rfl⟩
  · obtain ⟨hpre, hx⟩ := List.append_inj' h rfl
    exact .inl ⟨rfl, hpre, List.singleton_inj.mp hx⟩
  · rw [List.concat_eq_append, ← List.cons_append, ← List.append_assoc] at h
    obtain ⟨hpre, hx⟩ := List.append_inj' h rfl
    exact .inr ⟨post', by rw [List.concat_eq_append, List.singleton_inj.mp hx], hpre⟩

theorem live_append : Live C test (events ++ [e]) text s ↔
    (Live C test events text s ∧ ∀ n name, e = .uninterned n name true → ¬ SameName C test n text) ∨
      ∃ n, e = .interned n s ∧ SameName C test n text := by
  constructor
  · rintro ⟨pre, n, mid, heq, hn, hstays⟩
    rcases append_split heq with ⟨-, -, he⟩ | ⟨mid', rfl, hmid⟩
    · exact .inr ⟨n, he, hn⟩
    · rw [stays_append] at hstays
      exact .inl ⟨⟨pre, n, mid', hmid, hn, hstays.1⟩, hstays.2⟩
  · rintro (⟨⟨pre, n, mid, rfl, hn, hstays⟩, hnot⟩ | ⟨n, rfl, hn⟩)
    · exact ⟨pre, n, mid ++ [e], by simp, hn, stays_append.mpr ⟨hstays, hnot⟩⟩
    · exact ⟨events, n, [], rfl, hn, fun _ _ hmem => by simp at hmem⟩

/-- The history fits the symbols, and the results are as they should be. -/
structure Logged (C : Charset rep) (test : HashTableTest (LispString rep)) (symbols : List (LispSymbol rep))
    (events : List (Event rep)) : Prop where
  made : ∀ n s, Event.interned n s ∈ events →
    ∃ sym, symbols[s]? = some sym ∧ SameName C test sym.name.data n
  once : ∀ text s, Live C test events text s → ∀ pre n mid, events = pre ++ .interned n s :: mid →
    Stays C test n mid
  explained : ∀ pre e post, events = pre ++ e :: post → Explained C test pre e

theorem Logged.sameName (h : Logged C test symbols events) (ha : Event.interned a s ∈ events)
    (hb : Event.interned b s ∈ events) : SameName C test a b := by
  obtain ⟨sym, hsym, ha⟩ := h.made a s ha
  obtain ⟨sym', hsym', hb⟩ := h.made b s hb
  rw [hsym] at hsym'
  exact ha.symm.trans (Option.some.inj hsym' ▸ hb)

theorem Live.mem (h : Live C test events text s) : ∃ n, Event.interned n s ∈ events ∧ SameName C test n text := by
  obtain ⟨pre, n, mid, rfl, hn, -⟩ := h
  exact ⟨n, by simp, hn⟩

theorem Logged.name_of_live (h : Logged C test symbols events) (hlive : Live C test events text s)
    (hn : Event.interned n s ∈ events) : SameName C test n text := by
  obtain ⟨n', hmem, hn'⟩ := hlive.mem
  exact (h.sameName hn hmem).trans hn'

theorem explained_append (h : ∀ pre e post, events = pre ++ e :: post → Explained C test pre e)
    (he : Explained C test events e) :
    ∀ pre x post, events ++ [e] = pre ++ x :: post → Explained C test pre x := by
  intro pre x post heq
  rcases append_split heq with ⟨-, rfl, rfl⟩ | ⟨post', -, heq⟩
  · exact he
  · exact h pre x post' heq

theorem Logged.append (h : Logged C test symbols events)
    (hsymbols : ∀ (s : ℕ) (sym : LispSymbol rep), symbols[s]? = some sym → ∃ sym' : LispSymbol rep, symbols'[s]? = some sym' ∧ sym'.name = sym.name)
    (hnot : ∀ n s, e ≠ .interned n s) (he : Explained C test events e) :
    Logged C test symbols' (events ++ [e]) := by
  refine ⟨fun n s hmem => ?_, fun text s hlive pre n mid heq => ?_, explained_append h.explained he⟩
  · rcases List.mem_append.mp hmem with hmem | hmem
    · obtain ⟨sym, hsym, hn⟩ := h.made n s hmem
      obtain ⟨sym', hsym', hname⟩ := hsymbols s sym hsym
      exact ⟨sym', hsym', hname ▸ hn⟩
    · exact absurd (List.mem_singleton.mp hmem).symm (hnot n s)
  · rcases append_split heq with ⟨-, -, he'⟩ | ⟨mid', rfl, hmid⟩
    · exact absurd he' (hnot n s)
    · rcases live_append.mp hlive with ⟨hlive, hremoved⟩ | ⟨n', he', -⟩
      · have hname := h.name_of_live hlive (n := n) (hmid ▸ by simp)
        exact stays_append.mpr ⟨h.once text s hlive pre n mid' hmid, fun n' name he' hn' =>
          hremoved n' name he' (hn'.trans hname)⟩
      · exact absurd he' (hnot n' s)

theorem Logged.append_found (h : Logged C test symbols events)
    (hsingle : ∀ s, Live C test events b s → s = t) (hlive : Live C test events b t) :
    Logged C test symbols (events ++ [.interned b t]) := by
  refine ⟨fun n s hmem => ?_, fun text s hlive' pre n mid heq => ?_,
    explained_append h.explained fun pre a s mid heq => ⟨?_, ?_⟩⟩
  · rcases List.mem_append.mp hmem with hmem | hmem
    · exact h.made n s hmem
    · obtain ⟨rfl, rfl⟩ := Event.interned.inj (List.mem_singleton.mp hmem)
      obtain ⟨n', hmem', hn'⟩ := hlive.mem
      obtain ⟨sym, hsym, hsame⟩ := h.made n' s hmem'
      exact ⟨sym, hsym, hsame.trans hn'⟩
  · rcases append_split heq with ⟨rfl, -, -⟩ | ⟨mid', rfl, hmid⟩
    · intro _ _ hmem
      simp at hmem
    · refine stays_append.mpr ⟨?_, fun n' name he' => by simp at he'⟩
      rcases live_append.mp hlive' with ⟨hlive', -⟩ | ⟨n', he', -⟩
      · exact h.once text s hlive' pre n mid' hmid
      · obtain ⟨-, rfl⟩ := Event.interned.inj he'
        exact h.once b t hlive pre n mid' hmid
  · rintro rfl
    exact ⟨h.name_of_live hlive (heq ▸ by simp), h.once b s hlive pre a mid heq⟩
  · rintro ⟨hab, hstays⟩
    exact hsingle s ⟨pre, a, mid, heq, hab, hstays.congr hab⟩

theorem Logged.append_new (h : Logged C test symbols events) (habsent : ∀ s, ¬ Live C test events b s)
    {sym : LispSymbol rep} (hname : SameName C test sym.name.data b) :
    Logged C test (symbols ++ [sym]) (events ++ [.interned b symbols.length]) := by
  have hfresh : ∀ n, Event.interned n symbols.length ∉ events := by
    intro n hmem
    obtain ⟨sym', hsym', -⟩ := h.made n _ hmem
    simp at hsym'
  refine ⟨fun n s hmem => ?_, fun text s hlive' pre n mid heq => ?_,
    explained_append h.explained fun pre a s mid heq => ⟨?_, ?_⟩⟩
  · rcases List.mem_append.mp hmem with hmem | hmem
    · obtain ⟨sym', hsym', hn⟩ := h.made n s hmem
      exact ⟨sym', List.getElem?_append_left (List.getElem?_eq_some_iff.mp hsym').1 ▸ hsym', hn⟩
    · obtain ⟨rfl, rfl⟩ := Event.interned.inj (List.mem_singleton.mp hmem)
      exact ⟨sym, List.getElem?_concat_length, hname⟩
  · rcases append_split heq with ⟨rfl, -, -⟩ | ⟨mid', rfl, hmid⟩
    · intro _ _ hmem
      simp at hmem
    · refine stays_append.mpr ⟨?_, fun n' name he' => by simp at he'⟩
      rcases live_append.mp hlive' with ⟨hlive', -⟩ | ⟨n', he', -⟩
      · exact h.once text s hlive' pre n mid' hmid
      · obtain ⟨-, rfl⟩ := Event.interned.inj he'
        exact absurd (hmid ▸ by simp) (hfresh n)
  · rintro rfl
    exact absurd (heq ▸ by simp) (hfresh a)
  · rintro ⟨hab, hstays⟩
    exact absurd ⟨pre, a, mid, heq, hab, hstays.congr hab⟩ (habsent s)

/-! ### Packages and the maps they stand for -/

/-- The package stands for the map from names to the symbols that are live. -/
structure Tracks (hc : Compatible (stringMethods C D levels) test) (H : History rep)
    (m : Quotient hc.setoid → Option ℕ) : Prop where
  represents : Represents hc H.package.table m
  sized : Sized H.package.table
  golden : H.package.table.goldenRatio ≤ H.package.table.size
  live : ∀ (key : LispString rep) (s : ℕ), m ⟦key⟧ = some s ↔ Live C test H.events key.data s
  logged : Logged C test H.package.symbols H.events

variable {hc : Compatible (stringMethods C D levels) test} {H : History rep} {m : Quotient hc.setoid → Option ℕ}
  {key : LispString rep} {ht' : HashTable (LispString rep) ℕ}

theorem Tracks.oblookup_eq (h : Tracks hc H m) (htest : IsPackageTest test) (key : LispString rep) :
    oblookup C H.package.table key.data =
      (H.package.table.findHtentry (stringMethods C D levels) key).map fun probe =>
        .ok (lookupAt H.package.table probe) :=
  Table.oblookup_eq (h.represents.test_eq ▸ htest) h.golden h.represents.size.bounds.2 key

theorem Tracks.lookup (h : Tracks hc H m) (htest : IsPackageTest test) (key : LispString rep) :
    (∃ s, oblookup C H.package.table key.data = some (.ok (.symbol s)) ∧ m ⟦key⟧ = some s) ∨
      ∃ k : ℤ, oblookup C H.package.table key.data =
          some (.ok (.bucket (k % H.package.table.hentries.length).toNat)) ∧ m ⟦key⟧ = none ∧
        H.package.table.findHtentry (stringMethods C D levels) key =
          some (k % H.package.table.hentries.length).toNat ∧
        slot H.package.table.hentries k = none := by
  obtain ⟨c, hclear⟩ := h.sized.exists_clear
  obtain ⟨k, hk, hs⟩ := h.represents.find hclear key
  have hlookup := h.oblookup_eq htest key
  rw [hk, Option.map_some] at hlookup
  have hget : H.package.table.hentries[(k % H.package.table.hentries.length).toNat]?.join =
      slot H.package.table.hentries k := rfl
  cases hslot : slot H.package.table.hentries k with
  | some e =>
    refine .inl ⟨e.value, ?_, (h.represents.get key e.value).mpr
      ⟨e, mem_iff_slot.mpr ⟨k, hslot⟩, hs.stop e hslot, rfl⟩⟩
    rw [hlookup, lookupAt, hget, hslot]
  | none =>
    refine .inr ⟨k, ?_, ?_, hk, hslot⟩
    · rw [hlookup, lookupAt, hget, hslot]
    · rw [Option.eq_none_iff_forall_ne_some]
      intro s hs'
      obtain ⟨e, he, heq, -⟩ := (h.represents.get key s).mp hs'
      exact h.represents.absent hs hslot he heq

theorem Tracks.live_unique (h : Tracks hc H m) (hs : Live C test H.events text s)
    (ht : Live C test H.events text t) : s = t := by
  have hs' := (h.live ⟨0, text⟩ s).mpr hs
  have ht' := (h.live ⟨0, text⟩ t).mpr ht
  rw [hs'] at ht'
  exact Option.some.inj ht'

theorem mk_eq_iff (htest : IsPackageTest test) {key key' : LispString rep} :
    (⟦key⟧ : Quotient hc.setoid) = ⟦key'⟧ ↔ SameName C test key.data key'.data :=
  Quotient.eq.trans (equalFunction_iff htest key key')

theorem golden_enlarge {M : KeyMethods (LispString rep)} (h : ht.enlarge M = some ht') :
    ht'.goldenRatio ≤ ht'.size := by
  rw [enlarge, resize] at h
  obtain ⟨l, -, rfl⟩ := Option.map_eq_some_iff.mp h
  exact computeGoldenRatio_le (lt_of_lt_of_le (by decide) (hashTableSize_isTableSize _).bounds.1)

theorem golden_remhash {M : KeyMethods (LispString rep)} {removed : Bool}
    (h : ht.remhash M key = some (ht', removed)) : ht'.goldenRatio = ht.goldenRatio ∧ ht'.size = ht.size := by
  rw [remhash] at h
  obtain ⟨probe, -, h⟩ := Option.bind_eq_some_iff.mp h
  split at h
  · obtain ⟨rfl, -⟩ := Prod.mk.inj (Option.some.inj h)
    exact ⟨rfl, rfl⟩
  · obtain ⟨ht₁, h₁, heq⟩ := Option.map_eq_some_iff.mp h
    rw [remhash1] at h₁
    obtain ⟨l, -, rfl⟩ := Option.map_eq_some_iff.mp h₁
    obtain ⟨rfl, -⟩ := Prod.mk.inj heq
    exact ⟨rfl, rfl⟩

theorem Tracks.internIstring (h : Tracks hc H m) (htest : IsPackageTest test) {reloc : Option (LispString rep)}
    {address : UInt64} (hkey : reloc.getD ⟨address, text⟩ = key) (htext : key.data = text)
    (hok : H.package.table.EnlargesToMore (stringMethods C D levels, .puthash key 0)) :
    ∃ P s m', H.package.internIstring C D levels text reloc address = some (.ok (P, s)) ∧
      Tracks hc ⟨P, H.events ++ [.interned text s]⟩ m' := by
  classical
  subst htext
  rcases h.lookup htest key with ⟨s, hlookup, hm⟩ | ⟨k, hlookup, hm, hfind, hslot⟩
  · have hlive := (h.live key s).mp hm
    refine ⟨H.package, s, m, ?_, h.represents, h.sized, h.golden, fun key' s' => ?_,
      h.logged.append_found (fun s' hs' => h.live_unique hs' hlive) hlive⟩
    · rw [Package.internIstring, hlookup]
      rfl
    · rw [h.live, live_append]
      refine ⟨fun hs' => .inl ⟨hs', fun _ _ he => by simp at he⟩, ?_⟩
      rintro (⟨hs', -⟩ | ⟨n, he, hn⟩)
      · exact hs'
      · obtain ⟨rfl, rfl⟩ := Event.interned.inj he
        exact (h.live key' s).mp ((mk_eq_iff htest).mpr hn ▸ hm)
  · have habsent : ∀ s, ¬ Live C test H.events key.data s := by
      intro s hs
      rw [← h.live key s, hm] at hs
      contradiction
    obtain ⟨c, hclear⟩ := h.sized.exists_clear
    obtain ⟨ht', hput, hrep⟩ := h.represents.puthash hclear key H.package.symbols.length
    have hok' : H.package.table.EnlargesToMore
      (stringMethods C D levels, .puthash key H.package.symbols.length) := hok
    obtain ⟨ht'', hput', hsized⟩ := h.sized.puthash hok'
    rw [hput] at hput'
    obtain rfl := Option.some.inj hput'
    rw [puthash_absent hfind hslot] at hput
    refine ⟨{ H.package with table := ht', symbols := H.package.symbols ++ [H.package.newSymbol key] },
      H.package.symbols.length, _, ?_, hrep, hsized, ?_, fun key' s' => ?_,
      h.logged.append_new habsent
        (show SameName C test (H.package.newSymbol key).name.data key.data from .refl C test key.data)⟩
    · rw [Package.internIstring, hlookup]
      simp only [Option.bind_some, hkey]
      exact congrArg (Option.map _) hput
    · split_ifs at hput
      · exact golden_enlarge hput
      · rw [← Option.some.inj hput]
        exact h.golden
    · rw [live_append]
      by_cases hsame : SameName C test key.data key'.data
      · rw [← (mk_eq_iff htest).mpr hsame, Function.update_self, Option.some.injEq]
        constructor
        · rintro rfl
          exact .inr ⟨_, rfl, hsame⟩
        · rintro (⟨hlive, -⟩ | ⟨n, he, -⟩)
          · rw [← h.live, ← (mk_eq_iff htest).mpr hsame, hm] at hlive
            contradiction
          · exact (Event.interned.inj he).2
      · rw [Function.update_of_ne fun heq => hsame ((mk_eq_iff htest).mp heq.symm), h.live]
        refine ⟨fun hs' => .inl ⟨hs', fun _ _ he => by simp at he⟩, ?_⟩
        rintro (⟨hs', -⟩ | ⟨n, he, hn⟩)
        · exact hs'
        · exact absurd ((Event.interned.inj he).1 ▸ hn) hsame

theorem live_append_of_not (hi : ∀ n s, e ≠ .interned n s) (hu : ∀ n name, e ≠ .uninterned n name true) :
    Live C test (events ++ [e]) text s ↔ Live C test events text s := by
  rw [live_append]
  constructor
  · rintro (⟨h, -⟩ | ⟨n, he, -⟩)
    · exact h
    · exact absurd he (hi n s)
  · exact fun h => .inl ⟨h, fun n name he => absurd he (hu n name)⟩

theorem Tracks.append {e : Event rep} (h : Tracks hc H m) (hinterned : ∀ n s, e ≠ .interned n s)
    (huninterned : ∀ n name, e ≠ .uninterned n name true) (he : Explained C test H.events e) :
    Tracks hc ⟨H.package, H.events ++ [e]⟩ m := by
  refine ⟨h.represents, h.sized, h.golden, fun key' s => ?_, h.logged.append (fun s sym hs => ⟨sym, hs, rfl⟩) hinterned he⟩
  rw [h.live]
  exact (live_append_of_not hinterned huninterned).symm

theorem Tracks.internSoft (h : Tracks hc H m) (htest : IsPackageTest test) {name : Name rep}
    (hname : H.package.nameString name = some key) :
    ∃ result, H.package.internSoft C name = some (.ok result) ∧
      Tracks hc ⟨H.package, H.events ++ [.sought key.data name result]⟩ m := by
  have hlog : ∀ result, Explained C test H.events (.sought key.data name result) →
      Tracks hc ⟨H.package, H.events ++ [.sought key.data name result]⟩ m := fun result he =>
    h.append (fun n s heq => by simp at heq) (fun n name heq => by simp at heq) he
  rw [Package.internSoft, hname, Option.bind_some]
  rcases h.lookup htest key with ⟨s, hlookup, hm⟩ | ⟨k, hlookup, hm, -⟩
  · refine ⟨if name.admits s then some s else none, by rw [hlookup]; rfl, hlog _ fun s' => ?_⟩
    have hlive := (h.live key s).mp hm
    constructor
    · intro hs'
      split_ifs at hs' with hadmits
      obtain rfl := Option.some.inj hs'
      exact ⟨hlive, hadmits⟩
    · rintro ⟨hs', hadmits⟩
      obtain rfl := h.live_unique hlive hs'
      rw [if_pos hadmits]
  · refine ⟨none, by rw [hlookup]; rfl, hlog _ fun s' => ⟨fun hs' => by simp at hs', ?_⟩⟩
    rintro ⟨hs', -⟩
    rw [← h.live, hm] at hs'
    contradiction

theorem Tracks.unintern (h : Tracks hc H m) (htest : IsPackageTest test) {name : Name rep}
    (hname : H.package.nameString name = some key) :
    ∃ P result m', H.package.unintern C D levels name = some (.ok (P, result)) ∧
      Tracks hc ⟨P, H.events ++ [.uninterned key.data name result]⟩ m' := by
  classical
  have hkept : Explained C test H.events (.uninterned key.data name false) →
      Tracks hc ⟨H.package, H.events ++ [.uninterned key.data name false]⟩ m := fun he =>
    h.append (fun n s heq => by simp at heq) (fun n name heq => by simp at heq) he
  rw [Package.unintern, hname, Option.bind_some]
  rcases h.lookup htest key with ⟨s, hlookup, hm⟩ | ⟨k, hlookup, hm, -⟩
  · have hlive := (h.live key s).mp hm
    by_cases hadmits : name.admits s = true
    · obtain ⟨c, hclear⟩ := h.sized.exists_clear
      obtain ⟨ht', found, hrem, hrep⟩ := h.represents.remhash hclear key
      obtain ⟨ht'', found', hrem', hsized⟩ := h.sized.remhash (stringMethods C D levels) key
      rw [hrem] at hrem'
      obtain ⟨rfl, rfl⟩ := Prod.mk.inj (Option.some.inj hrem')
      obtain ⟨hgolden, hsize⟩ := golden_remhash hrem
      refine ⟨{ H.package with table := ht', symbols := H.package.symbols.modify s LispSymbol.leavePackage }, true, _,
        ?_, hrep, hsized, ?_, fun key' s' => ?_, h.logged.append (fun i sym hi => ?_) (fun n s he => by simp at he)
          ⟨fun _ => ⟨s, hlive, hadmits⟩, fun _ => rfl⟩⟩
      · rw [hlookup, Option.bind_some]
        simp only [hadmits, if_true, hrem, Option.map_some]
      · show ht'.goldenRatio ≤ ht'.size
        rw [hgolden, hsize]
        exact h.golden
      · rw [live_append]
        by_cases hsame : SameName C test key.data key'.data
        · rw [← (mk_eq_iff htest).mpr hsame, Function.update_self]
          constructor
          · intro hnone
            contradiction
          · rintro (⟨-, hnot⟩ | ⟨n, he, -⟩)
            · exact absurd hsame (hnot key.data name rfl)
            · simp at he
        · rw [Function.update_of_ne fun heq => hsame ((mk_eq_iff htest).mp heq.symm), h.live]
          constructor
          · intro hs'
            refine .inl ⟨hs', fun n name' he => ?_⟩
            obtain ⟨rfl, -⟩ := Event.uninterned.inj he
            exact hsame
          · rintro (⟨hs', -⟩ | ⟨n, he, -⟩)
            · exact hs'
            · simp at he
      · rw [List.getElem?_modify, hi]
        refine ⟨_, rfl, ?_⟩
        split_ifs with hsi
        · exact sym.leavePackage_name
        · rfl
    · refine ⟨H.package, false, m, ?_, hkept ⟨fun hfalse => by simp at hfalse, ?_⟩⟩
      · rw [hlookup, Option.bind_some]
        simp only [hadmits, Bool.false_eq_true, if_false]
      · rintro ⟨s', hs', hadmits'⟩
        obtain rfl := h.live_unique hlive hs'
        exact absurd hadmits' hadmits
  · refine ⟨H.package, false, m, by rw [hlookup]; rfl, hkept ⟨fun hfalse => by simp at hfalse, ?_⟩⟩
    rintro ⟨s', hs', -⟩
    rw [← h.live, hm] at hs'
    contradiction

theorem Tracks.makeSymbol (h : Tracks hc H m) (name : LispString rep) :
    Tracks hc { H with package := { H.package with symbols := H.package.symbols ++ [makeSymbol name] } } m := by
  refine ⟨h.represents, h.sized, h.golden, h.live, fun n s hmem => ?_, h.logged.once, h.logged.explained⟩
  obtain ⟨sym, hsym, hn⟩ := h.logged.made n s hmem
  exact ⟨sym, List.getElem?_append_left (List.getElem?_eq_some_iff.mp hsym).1 ▸ hsym, hn⟩

/-! ### Runs -/

/-- Where a call adds the entry at which the table is enlarged, there is a larger size. -/
def InternGrows (C : Charset rep) (D : Doubles) (levels : ℕ) (H : History rep) : Call rep → Prop
  | .intern string => H.package.table.EnlargesToMore (stringMethods C D levels, .puthash string 0)
  | .internText str address => H.package.table.EnlargesToMore (stringMethods C D levels, .puthash ⟨address, str⟩ 0)
  | _ => True

instance (H : History rep) : (call : Call rep) → Decidable (InternGrows C D levels H call)
  | .makeSymbol _ => isTrue trivial
  | .intern string =>
    inferInstanceAs (Decidable (H.package.table.EnlargesToMore (stringMethods C D levels, .puthash string 0)))
  | .internText str address =>
    inferInstanceAs (Decidable (H.package.table.EnlargesToMore (stringMethods C D levels, .puthash ⟨address, str⟩ 0)))
  | .internSoft _ => isTrue trivial
  | .unintern _ => isTrue trivial

/-- A NAME that is a symbol is one of the symbols there are. -/
def HasName (H : History rep) : Call rep → Prop
  | .internSoft name => (H.package.nameString name).isSome
  | .unintern name => (H.package.nameString name).isSome
  | _ => True

theorem Tracks.step (h : Tracks hc H m) (htest : IsPackageTest test) {call : Call rep} (hname : HasName H call)
    (hok : InternGrows C D levels H call) :
    ∃ H' m', H.step C D levels call = some H' ∧ Tracks hc H' m' := by
  cases call with
  | makeSymbol name => exact ⟨_, m, rfl, h.makeSymbol name⟩
  | intern string =>
    obtain ⟨P, s, m', heq, h'⟩ := h.internIstring htest
      (show (some string).getD ⟨0, string.data⟩ = string from rfl) rfl hok
    exact ⟨_, m', by rw [History.step, Package.intern, heq]; rfl, h'⟩
  | internText str address =>
    obtain ⟨P, s, m', heq, h'⟩ := h.internIstring htest
      (show (none : Option (LispString rep)).getD ⟨address, str⟩ = _ from rfl) rfl hok
    exact ⟨_, m', by rw [History.step, heq]; rfl, h'⟩
  | internSoft name =>
    obtain ⟨key, hkey⟩ := Option.isSome_iff_exists.mp hname
    obtain ⟨result, heq, h'⟩ := h.internSoft htest hkey
    exact ⟨_, m, by rw [History.step, hkey, Option.bind_some, heq]; rfl, h'⟩
  | unintern name =>
    obtain ⟨key, hkey⟩ := Option.isSome_iff_exists.mp hname
    obtain ⟨P, result, m', heq, h'⟩ := h.unintern htest hkey
    exact ⟨_, m', by rw [History.step, hkey, Option.bind_some, heq]; rfl, h'⟩

theorem hasName_of_step {H' : History rep} {call : Call rep} (h : H.step C D levels call = some H') :
    HasName H call := by
  cases call with
  | makeSymbol name => trivial
  | intern string => trivial
  | internText str address => trivial
  | internSoft name =>
    obtain ⟨key, hkey, -⟩ := Option.bind_eq_some_iff.mp h
    rw [HasName, hkey]
    rfl
  | unintern name =>
    obtain ⟨key, hkey, -⟩ := Option.bind_eq_some_iff.mp h
    rw [HasName, hkey]
    rfl

structure Interns (C : Charset rep) (D : Doubles) (levels : ℕ) (test : HashTableTest (LispString rep))
    (H : History rep) : Prop where
  explained : ∀ pre e post, H.events = pre ++ e :: post → Explained C test pre e
  /-- `oblookup` probes as `resize_hash_table` and `remhash_1` do -/
  home : ∀ key, oblookupHome C H.package.table key.data =
    H.package.table.home (stringMethods C D levels) H.package.table.test key
  lookup : ∀ key, oblookup C H.package.table key.data =
    (H.package.table.findHtentry (stringMethods C D levels) key).map fun probe =>
      .ok (lookupAt H.package.table probe)
  calls : ∀ call, HasName H call → InternGrows C D levels H call → (H.step C D levels call).isSome

theorem Tracks.interns (h : Tracks hc H m) (htest : IsPackageTest test) : Interns C D levels test H := by
  refine ⟨h.logged.explained, fun key => ?_, h.oblookup_eq htest, fun call hname hok => ?_⟩
  · exact oblookupHome_eq (h.represents.test_eq ▸ htest) h.golden h.represents.size.bounds.2 key
  · obtain ⟨H', m', heq, -⟩ := h.step htest hname hok
    rw [heq]
    rfl

theorem tracks_makeHashTable (hc : Compatible (stringMethods C D levels) test)
    {size rehashSize rehashThreshold : KeywordArg} {weakness : HashTableWeakness}
    (hmake : makeHashTable test size rehashSize rehashThreshold weakness = .ok ht)
    (symbols : List (LispSymbol rep)) (isObarray : Bool) :
    Tracks hc ⟨⟨ht, symbols, isObarray⟩, []⟩ fun _ => none := by
  have hsized := sized_makeHashTable hmake
  refine ⟨represents_makeHashTable hc hmake, hsized, ?_, fun key s => ⟨fun hs => by simp at hs, ?_⟩,
    fun n s hmem => by simp at hmem, fun text s hlive => ?_, fun pre e post heq => by simp at heq⟩
  · rw [makeHashTable] at hmake
    split at hmake
    · contradiction
    · obtain rfl := Except.ok.inj hmake
      exact computeGoldenRatio_le hsized.pos
  · rintro ⟨pre, n, mid, heq, -⟩
    simp at heq
  · obtain ⟨pre, n, mid, heq, -⟩ := hlive
    simp at heq

def asciiName (b : UInt8) : LispString repBytesByFirstByte where
  address := 8 * b.toUInt64
  data := if h : 1 = repBytesByFirstByte b then [LispObject.letter b h] else []

def newPackage (test : HashTableTest (LispString repBytesByFirstByte)) (rehashSize : KeywordArg) :
    History repBytesByFirstByte :=
  ⟨⟨makeGeneralLispHashTable test 16 (decodeFloat rehashSize) (-1) .nonWeak, [], false⟩, []⟩

theorem makeHashTable_default : makeHashTable test .nil .nil .nil .nonWeak =
    .ok (makeGeneralLispHashTable (V := ℕ) test 16 (decodeFloat .nil) (-1) .nonWeak) := rfl

end Package

end XEmacs.Table
