import Castrum.Http.FormSpec
import Castrum.Json.Patch
import Castrum.Lib.Escaping
import Castrum.Util.Str

/-!
# Castrum — JSON pointers (`rust/json/patch/pointer.rs`)

`Pointer::parse` on the characters of a string. RFC 6901 writes a segment behind a slash, with `~0` for a
tilde in it and `~1` for a slash.

* `render` — the pointer for some segments;
* `parseChars_eq` — the loop is the reader of such texts;
* `parse_eq` — on bytes `Pointer.parse` is the same reader;
* `pointer_grammar` — what is read, and what is rejected.
-/

namespace Castrum.JsonPatch

/-! ## The parser -/

/-- The loop over `chars`; `cur` is the segment being read. -/
def parseChars : Str → Str → List Str → Option (List Str)
  | [], cur, segments => some (segments ++ [cur])
  | '/' :: chars, cur, segments => parseChars chars [] (segments ++ [cur])
  | '~' :: '0' :: chars, cur, segments => parseChars chars (cur ++ ['~']) segments
  | '~' :: '1' :: chars, cur, segments => parseChars chars (cur ++ ['/']) segments
  | '~' :: _, _, _ => none
  | other :: chars, cur, segments => parseChars chars (cur ++ [other]) segments

/-- The segments of `Pointer::parse`. -/
def Pointer.parseStr (s : Str) : Option (List Str) :=
  if s = [] then some []
  else if s.head? ≠ some '/' then none
  else parseChars s.tail [] []

/-! ## RFC 6901 -/

def rfc6901 : Escaping Char where
  sep := '/'
  esc := '~'
  sepCode := '1'
  escCode := '0'
  sep_ne_esc := by decide
  codes_ne := by decide
  sepCode_ne := by decide
  escCode_ne := by decide

/-- The same on bytes. -/
def rfc6901Bytes : Escaping UInt8 where
  sep := slash
  esc := tilde
  sepCode := 49
  escCode := 48
  sep_ne_esc := by decide
  codes_ne := by decide
  sepCode_ne := by decide
  escCode_ne := by decide

/-- The pointer for some segments. -/
def render (segments : List Str) : Str := rfc6901.render segments

/-- A tilde that is not followed by `0` or `1`. -/
def InvalidEscape (s : Str) : Prop :=
  ∃ p q, s = p ++ '~' :: q ∧ q.head? ≠ some '0' ∧ q.head? ≠ some '1'

/-! ## The loop -/

theorem parseChars_eq (s cur : Str) (segments : List Str) :
    parseChars s cur segments = rfc6901.read s cur segments := by
  induction s using Escaping.readCases rfc6901 generalizing cur segments with
  | nil => rfl
  | sep rest ih =>
    rw [Escaping.read_sep, ← ih]
    rfl
  | escCode rest ih =>
    rw [Escaping.read_escCode, ← ih]
    rfl
  | sepCode rest ih =>
    rw [Escaping.read_sepCode, ← ih]
    rfl
  | dangling rest hesc hsep =>
    rw [Escaping.read_dangling hesc hsep]
    cases rest with
    | nil => rfl
    | cons code rest =>
      -- neither code stands behind the tilde, so that only the last branch is left
      show parseChars ('~' :: code :: rest) cur segments = none
      rw [parseChars]
      · exact fun _ h => hesc (congrArg List.head? h)
      · exact fun _ h => hsep (congrArg List.head? h)
  | plain c rest hsep hesc ih =>
    rw [Escaping.read_plain hsep hesc, ← ih, parseChars]
    · exact hsep
    · exact fun _ h _ => hesc h
    · exact fun _ h _ => hesc h
    · exact hesc

theorem parseStr_eq (s : Str) : Pointer.parseStr s = rfc6901.parse s := by
  cases s with
  | nil => rfl
  | cons c rest =>
    rw [Pointer.parseStr, if_neg (List.cons_ne_nil c rest), Escaping.parse, List.head?_cons, List.tail_cons,
      parseChars_eq]
    by_cases hc : c = '/'
    · rw [if_neg (not_not.mpr (congrArg some hc))]
      exact (if_pos hc).symm
    · rw [if_pos fun h => hc (Option.some.inj h)]
      exact (if_neg hc).symm

/-! ## On bytes -/

theorem parseSegments_eq (s cur : Bytes) (segments : List Bytes) :
    parseSegments s cur segments = rfc6901Bytes.read s cur segments := by
  induction s using Escaping.readCases rfc6901Bytes generalizing cur segments with
  | nil => rfl
  | sep rest ih =>
    rw [Escaping.read_sep, ← ih, parseSegments.eq_def]
    exact if_pos rfl
  | escCode rest ih =>
    rw [Escaping.read_escCode, ← ih, parseSegments.eq_def]
    rfl
  | sepCode rest ih =>
    rw [Escaping.read_sepCode, ← ih, parseSegments.eq_def]
    rfl
  | dangling rest hesc hsep =>
    have hslash : rfc6901Bytes.esc ≠ slash := by decide
    rw [Escaping.read_dangling hesc hsep, parseSegments.eq_def]
    refine (if_neg hslash).trans ((if_pos rfl).trans ?_)
    split
    · exact absurd rfl hesc
    · exact absurd rfl hsep
    · rfl
  | plain c rest hsep hesc ih =>
    rw [Escaping.read_plain hsep hesc, ← ih, parseSegments.eq_def]
    exact (if_neg hsep).trans (if_neg hesc)

/-- On bytes `Pointer.parse` is the reader of the same texts. -/
theorem parse_eq (s : Bytes) : Pointer.parse s = (rfc6901Bytes.parse s).map Pointer.mk := by
  cases s with
  | nil => rfl
  | cons c rest =>
    rw [Pointer.parse, Escaping.parse]
    by_cases hc : c = slash
    · have hsep : c = rfc6901Bytes.sep := hc
      rw [if_pos hc, if_pos hsep, parseSegments_eq]
    · have hsep : c ≠ rfc6901Bytes.sep := hc
      rw [if_neg hc, if_neg hsep, Option.map_none]

/-! ## Pointers -/

/-- **Parsing inverts the rendering.** The pointer for some segments is read as these; the strings that are
rejected are those that are no rendering, and these are the strings that do not begin with a slash, or have
an invalid escape. -/
theorem pointer_grammar :
    (∀ segments : List Str, Pointer.parseStr (render segments) = some segments) ∧
    ∀ s : Str,
      (Pointer.parseStr s = none ↔ ∀ segments : List Str, s ≠ render segments) ∧
      (Pointer.parseStr s = none ↔ (s ≠ [] ∧ s.head? ≠ some '/') ∨ InvalidEscape s) := by
  refine ⟨fun segments => (parseStr_eq _).trans (Escaping.parse_render segments), fun s => ⟨?_, ?_⟩⟩
  · rw [parseStr_eq, Option.eq_none_iff_forall_ne_some]
    exact forall_congr' fun segments => not_congr Escaping.parse_eq_some_iff
  · rw [parseStr_eq]
    exact Escaping.parse_eq_none_iff

/-- A segment that looks like an escape. -/
example : Pointer.parseStr "/~01/".toList = some ["~1".toList, []] := by decide

end Castrum.JsonPatch
