import Mathlib.Algebra.BigOperators.Group.List.Basic
import Mathlib.Data.List.Chain
import Mathlib.Data.List.TakeWhile
import XEmacs.Coding.CharsetConsistency
import XEmacs.Coding.MultibyteCharsets

/-! What `multibyte_decode` does with chunks of bytes. The text is that of all the bytes
together, and it is encoded as these bytes. The count of characters leaves out the characters
of two bytes. -/

namespace XEmacs.Coding.Multibyte

open Lib
open Unicode (Byte byte byteAsciiP unicodeErrorOctetRangeStart unicodeErrorOctetCodeP)

/-- A character put out by `multibyte_decode`, with the bytes it is for. -/
inductive Piece
  | ascii (b : Byte)
  | one (b : Byte) (ich : ℕ)
  | two (b c : Byte) (ich : ℕ)
  | octet (b : Byte)

namespace Piece

def bytes : Piece → List Byte
  | ascii b => [b]
  | one b _ => [b]
  | two b c _ => [b, c]
  | octet b => [b]

def char : Piece → ℕ
  | ascii b => b.val
  | one _ ich => ich
  | two _ _ ich => ich
  | octet b => b.val + unicodeErrorOctetRangeStart

/-- What the character adds to `characters_seen`. -/
def count : Piece → ℕ
  | two _ _ _ => 0
  | _ => 1

def Stands (env : Charsets) (precarr : PrecedenceArray) : Piece → Prop
  | ascii b => Charsets.skipAsciiP precarr ∧ byteAsciiP b
  | one b ich => env.tryToDeriveCharacter 0 b 1 precarr = some ich
  | two b c ich => env.tryToDeriveCharacter b c 2 precarr = some ich
  | octet b => env.tryToDeriveCharacter 0 b 1 precarr = none

end Piece

variable {env : Charsets} {precarr : PrecedenceArray} {data : MultibyteCodingStream} {bytes left src : List Byte}
  {pieces : List Piece} {b c : Byte} {seen : ℕ} {chunks : List (List Byte)}

namespace Charsets

def oneByte (env : Charsets) (precarr : PrecedenceArray) (seen : ℕ) (c : Byte) :
    MultibyteCodingStream × List Piece :=
  if skipAsciiP precarr ∧ byteAsciiP c then (⟨seen + 1, none⟩, [.ascii c])
  else
    match env.tryToDeriveCharacter 0 c 1 precarr with
    | none => (⟨seen, some c⟩, [])
    | some ich => (⟨seen + 1, none⟩, [.one c ich])

/-- The loop of `multibyte_decode` on one byte. -/
def decodeByte (env : Charsets) (precarr : PrecedenceArray) (data : MultibyteCodingStream) (c : Byte) :
    Option (MultibyteCodingStream × List Piece) :=
  some <|
    match data.ch with
    | some ch =>
      match env.tryToDeriveCharacter ch c 2 precarr with
      | some ich => (⟨data.charactersSeen, none⟩, [.two ch c ich])
      | none =>
        let r := env.oneByte precarr (data.charactersSeen + 1) c
        (r.1, .octet ch :: r.2)
    | none => env.oneByte precarr data.charactersSeen c

theorem transduce_ascii (hskip : skipAsciiP precarr) (hascii : ∀ c ∈ src, byteAsciiP c) :
    transduce (env.decodeByte precarr) ⟨seen, none⟩ src = some (⟨seen + src.length, none⟩, src.map .ascii) := by
  induction src generalizing seen with
  | nil => rfl
  | cons c src ih =>
    have hbyte : env.decodeByte precarr ⟨seen, none⟩ c = some (⟨seen + 1, none⟩, [.ascii c]) :=
      congrArg some (if_pos ⟨hskip, hascii c List.mem_cons_self⟩)
    have hrest := @ih (seen + 1) fun d hd => hascii d (List.mem_cons_of_mem c hd)
    rw [transduce_cons hbyte hrest, List.length_cons, List.map_cons, Nat.add_assoc, Nat.add_comm 1]
    rfl

theorem exists_retryOneByte (seen : ℕ) (c : Byte) (src : List Byte) :
    ∃ taken pieces, c :: src = taken ++ (env.retryOneByte precarr ⟨seen, none⟩ c src).2.2 ∧
      transduce (env.decodeByte precarr) ⟨seen, none⟩ taken =
        some ((env.retryOneByte precarr ⟨seen, none⟩ c src).1, pieces) ∧
      (env.retryOneByte precarr ⟨seen, none⟩ c src).2.1 = pieces.map Piece.char := by
  rw [retryOneByte]
  split_ifs with hskip
  · refine ⟨(c :: src).takeWhile byteAsciiP, _, List.takeWhile_append_dropWhile.symm,
      transduce_ascii hskip.1 fun d hd => List.mem_takeWhile_imp hd, ?_⟩
    rw [List.map_map]
    rfl
  · have hbyte : env.decodeByte precarr ⟨seen, none⟩ c =
        some (match env.tryToDeriveCharacter 0 c 1 precarr with
          | none => (⟨seen, some c⟩, [])
          | some ich => (⟨seen + 1, none⟩, [.one c ich])) := congrArg some (if_neg hskip)
    cases hderive : env.tryToDeriveCharacter 0 c 1 precarr with
    | none =>
      rw [hderive] at hbyte
      exact ⟨[c], [], rfl, (transduce_singleton _ _ _).trans hbyte, rfl⟩
    | some ich =>
      rw [hderive] at hbyte
      exact ⟨[c], [.one c ich], rfl, (transduce_singleton _ _ _).trans hbyte, rfl⟩

theorem transduce_octet {ch : Byte} (hch : data.ch = some ch)
    (hderive : env.tryToDeriveCharacter ch c 2 precarr = none) (src : List Byte) :
    transduce (env.decodeByte precarr) data (c :: src) =
      (transduce (env.decodeByte precarr) ⟨data.charactersSeen + 1, none⟩ (c :: src)).map
        fun r => (r.1, .octet ch :: r.2) := by
  have hbyte : env.decodeByte precarr data c =
      (env.decodeByte precarr ⟨data.charactersSeen + 1, none⟩ c).map fun r => (r.1, .octet ch :: r.2) := by
    simp only [decodeByte, hch, hderive, Option.map_some]
  simp only [transduce, hbyte, Option.bind_map, Option.map_bind]
  refine congrArg (Option.bind _) (funext fun r => ?_)
  simp only [Function.comp_apply, Option.map_map, List.cons_append]
  rfl

theorem exists_decodeLoop (data : MultibyteCodingStream) (src : List Byte) :
    ∃ t pieces, transduce (env.decodeByte precarr) data src = some (t, pieces) ∧
      env.decodeLoop precarr data src = (t, pieces.map Piece.char) := by
  induction data, src using decodeLoop.induct env precarr with
  | case1 data => exact ⟨data, [], rfl, decodeLoop.eq_1 env precarr data⟩
  | case2 data c src ch hch ich hderive ih =>
    obtain ⟨t, pieces, hrun, hloop⟩ := ih
    have hbyte : env.decodeByte precarr data c = some (⟨data.charactersSeen, none⟩, [.two ch c ich]) := by
      simp only [decodeByte, hch, hderive]
    refine ⟨t, _, transduce_cons hbyte hrun, ?_⟩
    rw [decodeLoop]
    simp only [hch, hderive, hloop]
    rfl
  | case3 data c src ch hch hderive r ih =>
    obtain ⟨t, pieces, hrun, hloop⟩ := ih
    obtain ⟨taken, first, heq, htaken, hout⟩ :=
      @exists_retryOneByte env precarr (data.charactersSeen + 1) c src
    have hall := transduce_append_some htaken hrun
    rw [← heq] at hall
    refine ⟨t, .octet ch :: (first ++ pieces), ?_, ?_⟩
    · rw [transduce_octet hch hderive, hall]
      rfl
    · rw [decodeLoop]
      simp only [hch, hderive]
      rw [hloop, hout, List.map_cons, List.map_append]
      rfl
  | case4 data c src hch r ih =>
    obtain ⟨seen, ch⟩ := data
    obtain rfl : ch = none := hch
    obtain ⟨t, pieces, hrun, hloop⟩ := ih
    obtain ⟨taken, first, heq, htaken, hout⟩ := @exists_retryOneByte env precarr seen c src
    have hall := transduce_append_some htaken hrun
    rw [← heq] at hall
    refine ⟨t, first ++ pieces, hall, ?_⟩
    rw [decodeLoop]
    simp only
    rw [hloop, hout, List.map_append]
    rfl

/-! ### What has been decoded -/

def NoPair (env : Charsets) (precarr : PrecedenceArray) (b c : Byte) : Prop :=
  env.tryToDeriveCharacter b c 2 precarr = none

/-- The bytes taken in are those of the characters put out, with some left over. -/
structure Spelled (env : Charsets) (precarr : PrecedenceArray) (seen : ℕ) (bytes left : List Byte)
    (pieces : List Piece) : Prop where
  bytes_eq : bytes = pieces.flatMap Piece.bytes ++ left
  seen_eq : seen = (pieces.map Piece.count).sum
  stands : ∀ p ∈ pieces, p.Stands env precarr
  chain : (∀ p ∈ pieces, p.count = 1) → bytes.IsChain (NoPair env precarr)

structure Decoded (env : Charsets) (precarr : PrecedenceArray) (data : MultibyteCodingStream) (bytes : List Byte)
    (pieces : List Piece) : Prop where
  spelled : Spelled env precarr data.charactersSeen bytes data.ch.toList pieces
  pending : ∀ ch ∈ data.ch, env.tryToDeriveCharacter 0 ch 1 precarr = none
  last : data.ch = none → (∀ p ∈ pieces, p.count = 1) → ∀ b ∈ bytes.getLast?, ∀ c, NoPair env precarr b c

theorem decoded_init : Decoded env precarr .init [] [] :=
  ⟨⟨rfl, rfl, fun _ h => absurd h List.not_mem_nil, fun _ => List.isChain_nil⟩, fun _ h => absurd h (by simp [MultibyteCodingStream.init]),
    fun _ _ _ h => absurd h (by simp)⟩

theorem forall_append_singleton {p : Piece} :
    (∀ q ∈ pieces ++ [p], q.count = 1) ↔ (∀ q ∈ pieces, q.count = 1) ∧ p.count = 1 := by
  simp only [List.mem_append, List.mem_singleton, or_imp, forall_and, forall_eq]

theorem Spelled.snoc (h : Spelled env precarr seen bytes left pieces) (p : Piece) (src : List Byte)
    (hstands : p.Stands env precarr) (hbytes : bytes ++ src = (pieces ++ [p]).flatMap Piece.bytes)
    (hchain : (∀ q ∈ pieces, q.count = 1) → p.count = 1 → (bytes ++ src).IsChain (NoPair env precarr)) :
    Spelled env precarr (seen + p.count) (bytes ++ src) [] (pieces ++ [p]) where
  bytes_eq := hbytes.trans (List.append_nil _).symm
  seen_eq := by
    rw [List.map_append, List.sum_append, ← h.seen_eq]
    simp
  stands q hq := by
    rcases List.mem_append.mp hq with hq | hq
    · exact h.stands q hq
    · rw [List.mem_singleton.mp hq]
      exact hstands
  chain hall := hchain (forall_append_singleton.mp hall).1 (forall_append_singleton.mp hall).2

theorem isChain_snoc (h : bytes.IsChain (NoPair env precarr))
    (hlast : ∀ b ∈ bytes.getLast?, NoPair env precarr b c) : (bytes ++ [c]).IsChain (NoPair env precarr) := by
  refine h.append (List.isChain_singleton c) fun b hb d hd => ?_
  rw [List.head?_singleton, Option.mem_some_iff] at hd
  rw [← hd]
  exact hlast b hb

theorem last_snoc (hlead : ∀ d, NoPair env precarr c d) :
    ∀ b ∈ (bytes ++ [c]).getLast?, ∀ d, NoPair env precarr b d := by
  intro b hb
  rw [List.getLast?_concat, Option.mem_some_iff] at hb
  rw [← hb]
  exact hlead

theorem Accepted.oneByte (hacc : Accepted env precarr) (h : Spelled env precarr seen bytes [] pieces)
    (hlast : (∀ p ∈ pieces, p.count = 1) → ∀ b ∈ bytes.getLast?, NoPair env precarr b c) :
    Decoded env precarr (env.oneByte precarr seen c).1 (bytes ++ [c])
      (pieces ++ (env.oneByte precarr seen c).2) := by
  have hbytes : bytes = pieces.flatMap Piece.bytes := h.bytes_eq.trans (List.append_nil _)
  have hchain := fun hall => isChain_snoc (h.chain hall) (hlast hall)
  rw [Charsets.oneByte]
  split_ifs with hskip
  · refine ⟨h.snoc (.ascii c) [c] hskip ?_ fun hall _ => hchain hall, fun _ h => absurd h (by simp), fun _ _ => ?_⟩
    · simp [hbytes, Piece.bytes]
    · exact last_snoc fun d => hacc.not_lead_of_ascii hskip.1 hskip.2 d
  · cases hderive : env.tryToDeriveCharacter 0 c 1 precarr with
    | none =>
      refine ⟨⟨?_, ?_, ?_, ?_⟩, ?_, fun hch => absurd hch (Option.some_ne_none c)⟩
      · rw [hbytes, List.append_nil]
        rfl
      · rw [List.append_nil]
        exact h.seen_eq
      · rw [List.append_nil]
        exact h.stands
      · rw [List.append_nil]
        exact hchain
      · intro ch hch
        rw [← Option.some.inj hch]
        exact hderive
    | some ich =>
      refine ⟨h.snoc (.one c ich) [c] hderive ?_ fun hall _ => hchain hall, fun _ h => absurd h (by simp),
        fun _ _ => ?_⟩
      · simp [hbytes, Piece.bytes]
      · exact last_snoc fun d => hacc.not_lead_of_derive hderive d

theorem not_count_two {ich : ℕ} : ¬ (Piece.two b c ich).count = 1 := Nat.zero_ne_one

theorem Decoded.octet {ch : Byte} (h : Decoded env precarr ⟨seen, some ch⟩ bytes pieces) :
    Spelled env precarr (seen + 1) bytes [] (pieces ++ [.octet ch]) := by
  have hbytes := h.spelled.bytes_eq
  have hsnoc := h.spelled.snoc (.octet ch) [] (h.pending ch rfl) (by simp [hbytes, Piece.bytes]) fun hall _ => by
    rw [List.append_nil]
    exact h.spelled.chain hall
  rwa [List.append_nil] at hsnoc

theorem Accepted.decodeByte (hacc : Accepted env precarr) (h : Decoded env precarr data bytes pieces) (c : Byte) :
    ∃ t new, env.decodeByte precarr data c = some (t, new) ∧
      Decoded env precarr t (bytes ++ [c]) (pieces ++ new) := by
  refine ⟨_, _, rfl, ?_⟩
  obtain ⟨seen, ch⟩ := data
  cases ch with
  | none => exact hacc.oneByte h.spelled fun hall b hb => h.last rfl hall b hb c
  | some ch =>
    have hbytes := h.spelled.bytes_eq
    have hlastch : ∀ b ∈ bytes.getLast?, b = ch := fun b hb => by
      rw [hbytes, Option.toList_some, List.getLast?_concat, Option.mem_some_iff] at hb
      exact hb.symm
    simp only
    cases hderive : env.tryToDeriveCharacter ch c 2 precarr with
    | some ich =>
      refine ⟨h.spelled.snoc (.two ch c ich) [c] hderive ?_ fun _ hcount => absurd hcount not_count_two,
        fun _ h => absurd h (by simp), fun _ hall => ?_⟩
      · simp [hbytes, Piece.bytes]
      · exact absurd (forall_append_singleton.mp hall).2 not_count_two
    | none =>
      have hone := hacc.oneByte (c := c) h.octet fun _ b hb => by
        rw [hlastch b hb]
        exact hderive
      rw [List.append_assoc] at hone
      exact hone

theorem Accepted.decodeLoop (hacc : Accepted env precarr) (h : Decoded env precarr data bytes pieces)
    (src : List Byte) : ∃ t new, env.decodeLoop precarr data src = (t, new.map Piece.char) ∧
      Decoded env precarr t (bytes ++ src) (pieces ++ new) := by
  obtain ⟨t, new, hrun, hloop⟩ := @exists_decodeLoop env precarr data src
  obtain ⟨t', new', hrun', hdecoded⟩ :=
    exists_transduce (P := Decoded env precarr) (fun t as out a ht => hacc.decodeByte ht a) h src
  obtain ⟨rfl, rfl⟩ := Prod.mk.inj (Option.some.inj (hrun.symm.trans hrun'))
  exact ⟨t, new, hloop, hdecoded⟩

theorem Accepted.decodeEof (hacc : Accepted env precarr) (h : Decoded env precarr data bytes pieces)
    (src : List Byte) : ∃ t new, env.multibyteDecode precarr data src true = (t, new.map Piece.char) ∧
      Spelled env precarr t.charactersSeen (bytes ++ src) [] (pieces ++ new) := by
  obtain ⟨⟨seen, ch⟩, new, hloop, hdecoded⟩ := hacc.decodeLoop h src
  rw [multibyteDecode, hloop]
  cases ch with
  | none => exact ⟨⟨seen, none⟩, new, congrArg (Prod.mk _) (List.append_nil _), hdecoded.spelled⟩
  | some ch =>
    refine ⟨⟨seen + 1, none⟩, new ++ [.octet ch], ?_, ?_⟩
    · rw [List.map_append]
      rfl
    · rw [← List.append_assoc]
      exact hdecoded.octet

/-! ### Counting characters -/

theorem count_le_one (p : Piece) : p.count ≤ 1 := by
  cases p with
  | two => exact Nat.zero_le 1
  | _ => exact le_refl 1

theorem sum_count_le (pieces : List Piece) : (pieces.map Piece.count).sum ≤ pieces.length := by
  induction pieces with
  | nil => exact le_refl 0
  | cons p pieces ih =>
    have hp := count_le_one p
    rw [List.map_cons, List.sum_cons, List.length_cons]
    omega

theorem sum_count_eq_iff (pieces : List Piece) :
    (pieces.map Piece.count).sum = pieces.length ↔ ∀ p ∈ pieces, p.count = 1 := by
  induction pieces with
  | nil => exact iff_of_true rfl fun _ h => absurd h List.not_mem_nil
  | cons p pieces ih =>
    have hp := count_le_one p
    have hsum := sum_count_le pieces
    rw [List.forall_mem_cons, ← ih, List.map_cons, List.sum_cons, List.length_cons]
    omega

theorem Spelled.seen_iff (h : Spelled env precarr seen bytes left pieces) :
    seen = pieces.length ↔ bytes.IsChain (NoPair env precarr) := by
  rw [h.seen_eq, sum_count_eq_iff]
  refine ⟨h.chain, fun hchain p hp => ?_⟩
  cases p with
  | ascii => rfl
  | one => rfl
  | octet => rfl
  | two b c ich =>
    obtain ⟨before, after, rfl⟩ := List.append_of_mem hp
    have hbytes : bytes = before.flatMap Piece.bytes ++ b :: c :: (after.flatMap Piece.bytes ++ left) := by
      rw [h.bytes_eq, List.flatMap_append, List.flatMap_cons, List.append_assoc, List.append_assoc]
      rfl
    have hpair := List.isChain_iff_forall_rel_of_append_cons_cons.mp hchain hbytes
    exact absurd ((h.stands _ hp).symm.trans hpair) (Option.some_ne_none ich)

theorem decodeChunks_text (data : MultibyteCodingStream) (hne : chunks ≠ []) :
    (env.decodeChunks precarr data chunks).flatMap (·.1) =
      (env.multibyteDecode precarr data chunks.flatten true).2 := by
  induction data, chunks using decodeChunks.induct env precarr with
  | case1 => exact absurd rfl hne
  | case2 data src =>
    rw [decodeChunks, List.flatten_cons, List.flatten_nil, List.append_nil]
    exact List.flatMap_singleton _ _
  | case3 data src chunk chunks r ih =>
    obtain ⟨t, pieces, hrun, hloop⟩ := @exists_decodeLoop env precarr data src
    obtain ⟨t', pieces', hrun', hloop'⟩ := @exists_decodeLoop env precarr t (chunk :: chunks).flatten
    obtain ⟨u, pieces'', hrun'', hloop''⟩ := @exists_decodeLoop env precarr data (src :: chunk :: chunks).flatten
    rw [List.flatten_cons, transduce_append_some hrun hrun'] at hrun''
    obtain ⟨rfl, rfl⟩ := Prod.mk.inj (Option.some.inj hrun'')
    have hr : r = (t, pieces.map Piece.char) := hloop
    rw [decodeChunks, List.flatMap_cons]
    rw [ih (List.cons_ne_nil _ _), hr]
    simp only [multibyteDecode, if_true, hloop', hloop'', emit, List.map_append, List.append_assoc]
    rw [show (if false = true then _ else env.decodeLoop precarr data src) = _ from if_neg Bool.false_ne_true, hloop]

theorem decodeChunks_cons {t : MultibyteCodingStream} {out : List ℕ} (hloop : env.decodeLoop precarr data src = (t, out))
    (hne : chunks ≠ []) : env.decodeChunks precarr data (src :: chunks) =
      (out, t.charactersSeen) :: env.decodeChunks precarr t chunks := by
  obtain ⟨chunk, chunks, rfl⟩ := List.exists_cons_of_ne_nil hne
  have hdecode : env.multibyteDecode precarr data src false = (t, out) := hloop
  rw [decodeChunks, hdecode]
  rfl

theorem decodeChunks_singleton {t : MultibyteCodingStream} {out : List ℕ}
    (hdecode : env.multibyteDecode precarr data src true = (t, out)) :
    env.decodeChunks precarr data [src] = [(out, t.charactersSeen)] := by
  rw [decodeChunks, hdecode]
  rfl

theorem Accepted.decodeChunks (hacc : Accepted env precarr) (h : Decoded env precarr data bytes pieces)
    (hne : chunks ≠ []) : ∃ before call new, env.decodeChunks precarr data chunks = before ++ [call] ∧
      (env.decodeChunks precarr data chunks).flatMap (·.1) = new.map Piece.char ∧
      Spelled env precarr call.2 (bytes ++ chunks.flatten) [] (pieces ++ new) := by
  induction chunks generalizing data bytes pieces with
  | nil => exact absurd rfl hne
  | cons src chunks ih =>
    by_cases hne' : chunks = []
    · subst hne'
      obtain ⟨t, new, hdecode, hspelled⟩ := hacc.decodeEof h src
      rw [decodeChunks_singleton hdecode, List.flatten_cons, List.flatten_nil, List.append_nil]
      exact ⟨[], _, new, rfl, List.flatMap_singleton _ _, hspelled⟩
    · obtain ⟨t, new, hloop, hdecoded⟩ := hacc.decodeLoop h src
      obtain ⟨before, call, new', hcalls, htext, hspelled⟩ := ih hdecoded hne'
      rw [decodeChunks_cons hloop hne', List.flatMap_cons, htext, hcalls, List.flatten_cons]
      refine ⟨_ :: before, call, new ++ new', rfl, List.map_append.symm, ?_⟩
      rw [← List.append_assoc, ← List.append_assoc]
      exact hspelled

theorem Accepted.tell (hacc : Accepted env precarr) (h : Decoded env precarr data bytes pieces)
    (hchain : (bytes ++ chunks.flatten).IsChain (NoPair env precarr)) {before after : List (List ℕ × ℕ)}
    {call : List ℕ × ℕ} (hcalls : env.decodeChunks precarr data chunks = before ++ call :: after) :
    call.2 = pieces.length + ((before ++ [call]).flatMap (·.1)).length := by
  induction chunks generalizing data bytes pieces before with
  | nil => exact absurd hcalls (by simp [Charsets.decodeChunks])
  | cons src chunks ih =>
    by_cases hne : chunks = []
    · subst hne
      obtain ⟨t, new, hdecode, hspelled⟩ := hacc.decodeEof h src
      rw [List.flatten_cons, List.flatten_nil, List.append_nil] at hchain
      have hseen := hspelled.seen_iff.mpr hchain
      rw [decodeChunks_singleton hdecode] at hcalls
      obtain ⟨rfl, rfl, rfl⟩ : before = [] ∧ call = (new.map Piece.char, t.charactersSeen) ∧ after = [] := by
        cases before with
        | nil =>
          obtain ⟨rfl, rfl⟩ := List.cons.inj hcalls
          exact ⟨rfl, rfl, rfl⟩
        | cons first before => exact absurd (congrArg List.length hcalls) (by simp)
      simpa using hseen
    · obtain ⟨t, new, hloop, hdecoded⟩ := hacc.decodeLoop h src
      rw [List.flatten_cons, ← List.append_assoc] at hchain
      have hseen := hdecoded.spelled.seen_iff.mpr hchain.left_of_append
      rw [decodeChunks_cons hloop hne] at hcalls
      cases before with
      | nil =>
        obtain ⟨rfl, -⟩ := List.cons.inj hcalls
        simpa using hseen
      | cons first before =>
        obtain ⟨rfl, hrest⟩ := List.cons.inj hcalls
        rw [ih hdecoded hchain hrest]
        simp [Nat.add_assoc]

/-- The byte is not decoded to an error octet that stands for another byte. -/
def OwnOctet (env : Charsets) (precarr : PrecedenceArray) (b : Byte) : Prop :=
  ∀ ich, env.tryToDeriveCharacter 0 b 1 precarr = some ich → unicodeErrorOctetCodeP ich → byte (ich &&& 0xff) = b

theorem Accepted.encode_one (hacc : Accepted env precarr) (hinv : Inverse env precarr.precdyn) {p : Piece}
    (hstands : p.Stands env precarr) (hcount : p.count = 1) :
    (env.encodeIchar precarr p.char).length = p.bytes.length ∧
      (env.encodeIchar precarr p.char = p.bytes ↔ ∀ b ∈ p.bytes, OwnOctet env precarr b) := by
  cases p with
  | two b c ich => exact absurd hcount not_count_two
  | ascii b =>
    have hencode := @encode_ascii env precarr b hstands.1 hstands.2
    refine ⟨congrArg List.length hencode, iff_of_true hencode fun d hd ich hderive hoctet => ?_⟩
    obtain rfl := List.mem_singleton.mp hd
    obtain rfl := hacc.eq_of_derive_ascii hstands.1 hstands.2 hderive
    rw [Unicode.unicodeErrorOctetCodeP, Bool.and_eq_true, decide_eq_true_eq, unicodeErrorOctetRangeStart] at hoctet
    omega
  | octet b =>
    have hencode := @encode_errorOctet env precarr b
    refine ⟨congrArg List.length hencode, iff_of_true hencode fun d hd ich hderive => ?_⟩
    obtain rfl := List.mem_singleton.mp hd
    exact absurd (hderive.symm.trans hstands) (Option.some_ne_none ich)
  | one b ich =>
    by_cases hoctet : unicodeErrorOctetCodeP ich
    · have hencode : env.encodeIchar precarr ich = [byte (ich &&& 0xff)] := if_pos hoctet
      rw [show (Piece.one b ich).char = ich from rfl, hencode]
      refine ⟨rfl, fun heq d hd ich' hderive _ => ?_, fun hown => ?_⟩
      · obtain rfl := List.mem_singleton.mp hd
        obtain rfl := Option.some.inj (hstands.symm.trans hderive)
        exact List.singleton_inj.mp heq
      · exact List.singleton_inj.mpr (hown b (List.mem_singleton_self b) ich hstands hoctet)
    · have hencode : env.encodeIchar precarr ich = [b] := hacc.encode_derived hinv hstands hoctet
      refine ⟨congrArg List.length hencode, iff_of_true hencode fun d hd ich' hderive hoctet' => ?_⟩
      obtain rfl := List.mem_singleton.mp hd
      obtain rfl := Option.some.inj (hstands.symm.trans hderive)
      exact absurd hoctet' hoctet

theorem Accepted.encode_pieces (hacc : Accepted env precarr) (hinv : Inverse env precarr.precdyn)
    (hstands : ∀ p ∈ pieces, p.Stands env precarr) (hcount : ∀ p ∈ pieces, p.count = 1) :
    env.multibyteEncode precarr (pieces.map Piece.char) = pieces.flatMap Piece.bytes ↔
      ∀ b ∈ pieces.flatMap Piece.bytes, OwnOctet env precarr b := by
  induction pieces with
  | nil => exact iff_of_true rfl fun _ h => absurd h List.not_mem_nil
  | cons p pieces ih =>
    obtain ⟨hlen, hone⟩ := hacc.encode_one hinv (hstands p List.mem_cons_self) (hcount p List.mem_cons_self)
    have hrest := ih (fun q hq => hstands q (List.mem_cons_of_mem p hq)) fun q hq => hcount q (List.mem_cons_of_mem p hq)
    rw [List.flatMap_cons, List.forall_mem_append, ← hone, ← hrest]
    exact ⟨fun heq => List.append_inj heq hlen, fun h => congrArg₂ _ h.1 h.2⟩

/-- Chunks of a file are decoded as the file is, the text is encoded as the file, and after each
call the characters are counted. -/
structure Faithful (env : Charsets) (precarr : PrecedenceArray) (chunks : List (List Byte)) : Prop where
  text : (env.decodeChunks precarr .init chunks).flatMap (·.1) =
    (env.multibyteDecode precarr .init chunks.flatten true).2
  bytes : env.multibyteEncode precarr ((env.decodeChunks precarr .init chunks).flatMap (·.1)) = chunks.flatten
  tell : ∀ before call after, env.decodeChunks precarr .init chunks = before ++ call :: after →
    call.2 = ((before ++ [call]).flatMap (·.1)).length

/-- No two bytes in a row are one character, and no byte is decoded to the error octet of
another. -/
structure OneByteEach (env : Charsets) (precarr : PrecedenceArray) (bytes : List Byte) : Prop where
  noPair : bytes.IsChain (NoPair env precarr)
  ownOctet : ∀ b ∈ bytes, OwnOctet env precarr b

/-- Multibyte decoding is transparent, but the characters are counted only where each is of one
byte. -/
theorem faithful_iff {value : List ℕ} (hputprop : env.multibytePutprop value = .ok precarr)
    (hinv : Inverse env value) (chunks : List (List Byte)) :
    Faithful env precarr chunks ↔ OneByteEach env precarr chunks.flatten := by
  obtain ⟨rfl, hacc⟩ := accepted_of_multibytePutprop hputprop
  by_cases hne : chunks = []
  · subst hne
    refine iff_of_true ⟨?_, rfl, fun before call after h => absurd h (by simp [Charsets.decodeChunks])⟩
      ⟨List.isChain_nil, fun _ h => absurd h List.not_mem_nil⟩
    rw [List.flatten_nil, multibyteDecode, Charsets.decodeLoop]
    rfl
  · obtain ⟨before, call, pieces, hcalls, htext, hspelled⟩ := hacc.decodeChunks decoded_init hne
    rw [List.nil_append, List.nil_append] at hspelled
    have hbytes := hspelled.bytes_eq.trans (List.append_nil _)
    have hcount (hchain : chunks.flatten.IsChain (NoPair env precarr)) : ∀ p ∈ pieces, p.count = 1 := by
      rw [← sum_count_eq_iff, ← hspelled.seen_eq]
      exact hspelled.seen_iff.mpr hchain
    constructor
    · intro h
      have htell := h.tell before call [] hcalls
      rw [← hcalls, htext, List.length_map] at htell
      have hchain := hspelled.seen_iff.mp htell
      refine ⟨hchain, ?_⟩
      have hencode := h.bytes
      rw [htext, hbytes] at hencode
      rw [hbytes]
      exact (hacc.encode_pieces hinv hspelled.stands (hcount hchain)).mp hencode
    · intro h
      refine ⟨decodeChunks_text _ hne, ?_, fun before call after hcalls => ?_⟩
      · rw [htext, hbytes]
        exact (hacc.encode_pieces hinv hspelled.stands (hcount h.noPair)).mpr (hbytes ▸ h.ownOctet)
      · rw [hacc.tell decoded_init h.noPair hcalls, List.length_nil, Nat.zero_add]

end Charsets

/-! ### A coding system of one character -/

/-- The to-Unicode table of `ascii`. -/
def asciiTable : ToUnicodeTable := some fun c1 => if c1 = 0 then some ⟨0, (List.range 128).map some⟩ else none

theorem code_asciiTable (c1 c2 : Byte) :
    ToUnicodeBase.code (asciiTable.bind fun toTable2 => toTable2 c1) c2 =
      if c1 = 0 ∧ c2.val < 128 then some c2.val else none := by
  rw [asciiTable, Option.bind_some]
  by_cases hc1 : c1 = 0
  · by_cases hc2 : c2.val < 128
    · simp [ToUnicodeBase.code, hc1, hc2, Nat.not_le.mpr hc2]
    · simp [ToUnicodeBase.code, hc1, hc2, Nat.not_lt.mp hc2]
  · simp [ToUnicodeBase.code, hc1]

theorem validUnicodeCodepointP_ascii {u : ℕ} (hu : u < 128) : validUnicodeCodepointP u = true := by
  have hand : u &&& 0x7ffff800 ≤ u := Nat.and_le_left
  rw [validUnicodeCodepointP, Bool.and_eq_true, decide_eq_true_eq, bne_iff_ne]
  omega

/-- `ascii`, of which no character is to be encoded. -/
def ascii : LispCharset where
  chars dim := if dim.val = 0 then 1 else 128
  offset _ := 0
  fits := by decide
  toUnicodeTable := asciiTable
  fromUnicodeTable _ := fromUnicodeBlank 3
  badvalUnicodeCode := none
  numberOfAsciiMappings := 128
  doAutoload := false
  autoloadFailed := false
  dimension := 1
  dimension_eq := Or.inl rfl
  row _ := ⟨rfl, rfl⟩
  chars_pos := by decide
  loaded h := absurd h Bool.false_ne_true
  valid h := by
    rw [Charset.codeOf, code_asciiTable] at h
    obtain ⟨hc, h⟩ := Option.ite_none_right_eq_some.mp h
    rw [← Option.some.inj h]
    exact validUnicodeCodepointP_ascii hc.2
  counted _ _ := by decide

theorem toIchar_of_loaded {cs : LispCharset} (h : cs.doAutoload = false) (c1 c2 : Byte) :
    cs.charsetCodepointToIchar c1 c2 = cs.codeOf c1 c2 := by
  rw [LispCharset.charsetCodepointToIchar, Charset.charsetCodepointToUnicode,
    Charset.charsetCodepointToUnicodeRaw1, if_neg (by rw [h]; exact Bool.false_ne_true), Option.join_some]

theorem ascii_toIchar {c : Byte} (hc : c.val < 128) : ascii.charsetCodepointToIchar 0 c = some c.val := by
  rw [toIchar_of_loaded rfl, Charset.codeOf]
  exact (code_asciiTable 0 c).trans (if_pos ⟨rfl, hc⟩)

/-- A charset of one character, whose code is 0x4e00. -/
def kanji : LispCharset where
  chars _ := 64
  offset dim := if dim.val = 0 then 0x80 else 0x40
  fits := by decide
  toUnicodeTable := setUnicodeConversionCharToUnicode (some 0x4e00) none 0x81 0x41
  fromUnicodeTable := setUnicodeConversionUnicodeToChar 0x4e00 (fun _ => fromUnicodeBlank 3) 0x8141
  badvalUnicodeCode := none
  numberOfAsciiMappings := 0
  doAutoload := false
  autoloadFailed := false
  dimension := 2
  dimension_eq := Or.inr rfl
  row h := absurd h (by decide)
  chars_pos := by decide
  loaded h := absurd h Bool.false_ne_true
  valid h := by
    rw [Charset.codeOf, Charset.codeOf_set] at h
    split_ifs at h
    · rw [← Option.some.inj h]
      decide
    · exact absurd h (Option.some_ne_none _).symm
  counted h hle := by
    rw [Charset.codeOf, Charset.codeOf_set] at h
    split_ifs at h
    · rw [← Option.some.inj h] at hle
      exact absurd hle (by decide)
    · exact absurd h (Option.some_ne_none _).symm

theorem toIchar_set {cs : LispCharset} {u : ℕ} {d1 d2 : Byte} (hload : cs.doAutoload = false)
    (htable : cs.toUnicodeTable = setUnicodeConversionCharToUnicode (some u) none d1 d2) (c1 c2 : Byte) :
    cs.charsetCodepointToIchar c1 c2 = if (c1, c2) = (d1, d2) then some u else none := by
  rw [toIchar_of_loaded hload, Charset.codeOf, htable]
  exact Charset.codeOf_set none (some u) d1 d2 c1 c2

theorem kanji_toIchar (c1 c2 : Byte) :
    kanji.charsetCodepointToIchar c1 c2 = if (c1, c2) = (0x81, 0x41) then some 0x4e00 else none :=
  toIchar_set rfl rfl c1 c2

theorem unicodeConversion_set {cs : LispCharset} {u u' combinedCode : ℕ} (hload : cs.doAutoload = false)
    (htable : cs.fromUnicodeTable = setUnicodeConversionUnicodeToChar u (fun _ => fromUnicodeBlank 3) combinedCode)
    (hbadval : cs.badvalUnicodeCode = none) (hcode : combinedCode ≠ badvalFromTable) (hu : u < 2 ^ 32)
    (hu' : u' < 2 ^ 32) : cs.unicodeConversion u' = if u' = u then some (Charset.octets combinedCode) else none := by
  have hwalk : walkCode u' 3 cs.fromUnicodeTable = if u' = u then combinedCode else badvalFromTable := by
    rw [htable, ← walkCode_blank u' 3]
    exact walkCode_storeCode hu hu' _
  have hconv : cs.unicodeConversion u' = cs.codepointOf u' := by
    rw [LispCharset.unicodeConversion, Charset.getUnicodeConversion1, if_neg (by rw [hload]; exact Bool.false_ne_true),
      Option.join_some]
  rw [hconv, Charset.codepointOf, hwalk]
  by_cases heq : u' = u
  · rw [if_pos heq, if_pos heq]
    exact if_pos hcode
  · rw [if_neg heq, if_neg heq, hbadval]
    exact if_neg fun h => absurd rfl h

theorem kanji_unicodeConversion {u : ℕ} (hu : u < 2 ^ 32) :
    kanji.unicodeConversion u = if u = 0x4e00 then some (0x81, 0x41) else none :=
  @unicodeConversion_set kanji 0x4e00 u 0x8141 rfl rfl rfl (by decide) (by decide) hu

/-- `ascii` and the charset of one character. -/
def sampleCharsets : Charsets where
  charset id := if id = 0 then ascii else kanji
  ascii := 0
  charsetById _ := none
  charsetByAttributes _ _ _ := none
  ascii_dimension := rfl
  ascii_limits := ⟨rfl, rfl⟩
  ascii_codes c hc := by
    rw [if_pos rfl]
    exact ascii_toIchar (Nat.lt_succ_of_le (Charsets.byteAsciiP_iff.mp hc))

theorem inverse_sampleCharsets : Charsets.Inverse sampleCharsets [1] where
  inverse charset hmem {c1 c2 u} hu := by
    rw [List.mem_singleton.mp hmem]
    rw [show sampleCharsets.charset 1 = kanji from rfl, kanji_toIchar,
      kanji_unicodeConversion (Charset.lt_of_validUnicodeCodepointP hu)]
    rw [Option.ite_none_right_eq_some, Option.ite_none_right_eq_some, Option.some.injEq, Option.some.injEq]
    exact ⟨fun h => ⟨h.2.symm, h.1.symm⟩, fun h => ⟨h.2.symm, h.1.symm⟩⟩
  unshared charset hmem ocharset homem _ _ _ _ :=
    (List.mem_singleton.mp hmem).trans (List.mem_singleton.mp homem).symm

theorem faithful_iff_sampleCharsets : Charsets.Faithful sampleCharsets ⟨[1], false, false⟩ [[0x41], [0x81]] :=
  (Charsets.faithful_iff (by rfl) inverse_sampleCharsets [[0x41], [0x81]]).mpr
    ⟨List.isChain_pair.mpr (by rfl), fun b _ ich h => by
      rw [show sampleCharsets.tryToDeriveCharacter 0 b 1 ⟨[1], false, false⟩ = none from rfl] at h
      exact absurd h (Option.some_ne_none ich).symm⟩

/-- The character of two bytes is not counted. -/
theorem multibyteCharacterTell_two_bytes :
    sampleCharsets.multibytePutprop [1] = .ok ⟨[1], false, false⟩ ∧ Charsets.Inverse sampleCharsets [1] ∧
      sampleCharsets.decodeChunks ⟨[1], false, false⟩ .init [[0x81], [0x41]] = [([], 0), ([0x4e00], 0)] ∧
      ¬ Charsets.Faithful sampleCharsets ⟨[1], false, false⟩ [[0x81], [0x41]] := by
  have hcalls : sampleCharsets.decodeChunks ⟨[1], false, false⟩ .init [[0x81], [0x41]] =
      [([], 0), ([0x4e00], 0)] := by
    have hone : sampleCharsets.tryToDeriveCharacter 0 0x81 1 ⟨[1], false, false⟩ = none := rfl
    have htwo : sampleCharsets.tryToDeriveCharacter 0x81 0x41 2 ⟨[1], false, false⟩ = some 0x4e00 := by
      rw [Charsets.tryToDeriveCharacter, List.findSome?_singleton]
      exact (if_pos ⟨rfl, by rfl⟩).trans (kanji_toIchar 0x81 0x41)
    have hfirst : sampleCharsets.decodeLoop ⟨[1], false, false⟩ .init [0x81] = (⟨0, some 0x81⟩, []) := by
      rw [Charsets.decodeLoop]
      simp [MultibyteCodingStream.init, Charsets.retryOneByte, Charsets.skipAsciiP, hone, Charsets.decodeLoop,
        Charsets.emit]
    have hlast : sampleCharsets.multibyteDecode ⟨[1], false, false⟩ ⟨0, some 0x81⟩ [0x41] true =
        (⟨0, none⟩, [0x4e00]) := by
      rw [Charsets.multibyteDecode, Charsets.decodeLoop]
      simp [htwo, Charsets.decodeLoop, Charsets.emit, Charsets.decodeStraggler]
    rw [Charsets.decodeChunks_cons hfirst (List.cons_ne_nil _ _), Charsets.decodeChunks_singleton hlast]
  refine ⟨by rfl, inverse_sampleCharsets, hcalls, fun h => ?_⟩
  exact absurd (h.tell [([], 0)] ([0x4e00], 0) [] hcalls) (by decide)

end XEmacs.Coding.Multibyte
