import Mathlib.Data.List.TakeWhile
import XEmacs.Coding.Unicode
import XEmacs.Lib.Bits

/-! The loops of the Unicode coding systems as one step for each byte or character. The
shortcut over ASCII takes the steps of its bytes together, so that what is decoded does not
depend on the chunks in which the bytes come. -/

namespace XEmacs.Coding.Unicode.UnicodeCodingSystem

open Lib

variable {cs : UnicodeCodingSystem} {data data' : UnicodeCodingStream} {src : List Byte} {out : List ℕ}

def decodeUtf8Step (cs : UnicodeCodingSystem) (data : UnicodeCodingStream) (c : Byte) :
    Option (UnicodeCodingStream × List ℕ) :=
  if data.counter = 0 ∧ byteAsciiP c then some ({ data with charactersSeen := data.charactersSeen + 1 }, [c.val])
  else cs.decodeUtf8 data c

/-- The step of the loop of `unicode_decode` on one byte. -/
def decodeStep (cs : UnicodeCodingSystem) : UnicodeCodingStream → Byte → Option (UnicodeCodingStream × List ℕ) :=
  match cs.type with
  | .utf8 => cs.decodeUtf8Step
  | .utf16 => cs.decodeUtf16
  | _ => cs.decodeUtf32

theorem transduce_ascii (hcounter : data.counter = 0) (hascii : ∀ c ∈ src, byteAsciiP c) :
    transduce cs.decodeUtf8Step data src =
      some ({ data with charactersSeen := data.charactersSeen + src.length }, src.map (·.val)) := by
  induction src generalizing data with
  | nil => rfl
  | cons c src ih =>
    have hstep : cs.decodeUtf8Step data c =
        some ({ data with charactersSeen := data.charactersSeen + 1 }, [c.val]) :=
      if_pos ⟨hcounter, hascii c List.mem_cons_self⟩
    have hrest := @ih { data with charactersSeen := data.charactersSeen + 1 } hcounter
      fun d hd => hascii d (List.mem_cons_of_mem c hd)
    rw [transduce_cons hstep hrest]
    simp only [List.length_cons, List.map_cons, List.singleton_append, Nat.add_assoc, Nat.add_comm 1]

theorem decodeUtf8Loop_eq (data : UnicodeCodingStream) (src : List Byte) :
    cs.decodeUtf8Loop data src = transduce cs.decodeUtf8Step data src := by
  induction data, src using decodeUtf8Loop.induct with
  | case1 data => rw [decodeUtf8Loop, transduce]
  | case2 data c src h ascii ih =>
    rw [decodeUtf8Loop, dif_pos h]
    simp only
    rw [ih]
    have hrun := @transduce_ascii cs _ ((c :: src).takeWhile byteAsciiP) h.1
      fun d hd => List.mem_takeWhile_imp hd
    rw [← List.takeWhile_append_dropWhile (p := byteAsciiP) (l := c :: src), transduce_append, hrun]
    simp only [List.takeWhile_append_dropWhile, Option.bind_some]
    rfl
  | case3 data c src h ih =>
    have hstep : cs.decodeUtf8Step data c = cs.decodeUtf8 data c := if_neg h
    rw [decodeUtf8Loop, dif_neg h, transduce, hstep]
    exact congrArg (Option.bind _) (funext fun r => by rw [ih r])

theorem decodeLoop_eq (data : UnicodeCodingStream) (src : List Byte) :
    cs.decodeLoop data src = transduce cs.decodeStep data src := by
  rw [decodeLoop, decodeStep]
  cases cs.type with
  | utf8 => exact decodeUtf8Loop_eq data src
  | utf16 => rfl
  | ucs4 => rfl
  | utf32 => rfl

def decodeFrom (cs : UnicodeCodingSystem) (data : UnicodeCodingStream) (src : List Byte) : Option (List ℕ) :=
  (transduce cs.decodeStep data src).bind fun r => (cs.decodeLeft r.1).map fun r' => r.2 ++ r'.2

theorem unicodeDecode_eof (data : UnicodeCodingStream) (src : List Byte) :
    (cs.unicodeDecode data src true).map (·.2) = cs.decodeFrom data src := by
  rw [unicodeDecode, decodeLoop_eq, decodeFrom, Option.map_bind]
  refine congrArg (Option.bind _) (funext fun r => ?_)
  simp only [Function.comp_apply, if_true, Option.map_map]
  rfl

theorem decodeFrom_append (data : UnicodeCodingStream) (src src' : List Byte) :
    cs.decodeFrom data (src ++ src') =
      (transduce cs.decodeStep data src).bind fun r => (cs.decodeFrom r.1 src').map (r.2 ++ ·) := by
  rw [decodeFrom, transduce_append, Option.bind_assoc]
  refine congrArg (Option.bind _) (funext fun r => ?_)
  rw [decodeFrom, Option.bind_map, Option.map_bind]
  refine congrArg (Option.bind _) (funext fun r' => ?_)
  simp only [Function.comp_apply, Option.map_map]
  refine congrArg (Option.map · _) (funext fun r'' => ?_)
  simp only [Function.comp_apply, List.append_assoc]

theorem decodeChunks_eq (data : UnicodeCodingStream) {chunks : List (List Byte)} (hne : chunks ≠ []) :
    cs.decodeChunks data chunks = cs.decodeFrom data chunks.flatten := by
  induction chunks generalizing data with
  | nil => exact absurd rfl hne
  | cons src chunks ih =>
    cases chunks with
    | nil => rw [decodeChunks, unicodeDecode_eof, List.flatten_cons, List.flatten_nil, List.append_nil]
    | cons chunk chunks =>
      rw [decodeChunks, List.flatten_cons, decodeFrom_append, unicodeDecode, decodeLoop_eq, Option.bind_assoc]
      refine congrArg (Option.bind _) (funext fun r => ?_)
      simp only [Bool.false_eq_true, if_false, Option.bind_some]
      rw [ih r.1 (List.cons_ne_nil _ _)]

theorem decode_eq (src : List Byte) : cs.decode src = cs.decodeFrom .fresh src := unicodeDecode_eof .fresh src

theorem unicodeErrorOctetCodeP_iff {c : ℕ} : unicodeErrorOctetCodeP c = true ↔ 0x200000 ≤ c ∧ c ≤ 0x2000ff := by
  rw [unicodeErrorOctetCodeP, Bool.and_eq_true, decide_eq_true_eq, decide_eq_true_eq]
  rfl

theorem encodeUnicodeToDynarr_ascii {c : ℕ} (hc : c < 0x80) (htype : cs.type = .utf8) :
    cs.encodeUnicodeToDynarr c = [byte c] := by
  have hoctet : ¬ unicodeErrorOctetCodeP c = true := by
    rw [unicodeErrorOctetCodeP_iff]
    omega
  rw [encodeUnicodeToDynarr, if_neg hoctet, htype]
  exact if_pos (Nat.le_of_lt_succ hc)

theorem encodeLoop_eq (src : List ℕ) : cs.encodeLoop src = src.flatMap cs.encodeUnicodeToDynarr := by
  induction src using encodeLoop.induct cs with
  | case1 => rw [encodeLoop, List.flatMap_nil]
  | case2 c src h ih =>
    have hascii : ((c :: src).takeWhile (· < 0x80)).map byte =
        ((c :: src).takeWhile (· < 0x80)).flatMap cs.encodeUnicodeToDynarr := by
      rw [← List.flatMap_singleton' (List.map byte _), List.flatMap_map]
      refine List.flatMap_congr fun d hd => ?_
      exact (encodeUnicodeToDynarr_ascii (by simpa using List.mem_takeWhile_imp hd) h.2).symm
    rw [encodeLoop, dif_pos h, ih, hascii, ← List.flatMap_append, List.takeWhile_append_dropWhile]
  | case3 c src h ih => rw [encodeLoop, dif_neg h, ih, List.flatMap_cons]

end XEmacs.Coding.Unicode.UnicodeCodingSystem
