import Castrum.Ingress.NativeRoute

/-!
# Castrum — what a run leaves in a buffer that is too small (`rust/ingress/native_route.rs`)

The writer copies each piece that fits behind the room for the header, until one does not fit; it
learns that the result does not fit only there. The count of a section is filled in behind its
pairs, and the header at the end, so what is left is the text in front of the piece that did not
fit, with the count of its section still zero.

* `ResultWriter.Holds.foldl_out` — pieces are copied as long as they fit;
* `Leaves.section` — one section more, by whether it fits;
* `NativeRoute.run_small` — the answer and the buffer of a run that does not fit;
* `NativeRoute.run_untouched_iff` — when that is the buffer as it was.
-/

namespace Castrum

/-! ## Pieces -/

/-- The pieces in front of the first one that does not fit. -/
def fitting (room : Nat) : List Bytes → List Bytes
  | [] => []
  | p :: ps => if p.length ≤ room then p :: fitting (room - p.length) ps else []

/-- What is appended for a pair, piece by piece. -/
def pairPieces (p : Bytes × Bytes) : List Bytes := [le32 p.1.length, p.1, le32 p.2.length, p.2]

/-- The pieces of a section, its count not filled in. -/
def sectionPieces (ps : List (Bytes × Bytes)) : List Bytes := le32 0 :: ps.flatMap pairPieces

namespace ResultWriter

variable {out text : Bytes} {start : Nat} {w : ResultWriter}

/-- A writer that is full copies nothing. -/
theorem foldl_bytes_full (h : w.full = true) (pieces : List Bytes) :
    (pieces.foldl ResultWriter.bytes w).full = true ∧
      (pieces.foldl ResultWriter.bytes w).out = w.out := by
  induction pieces generalizing w with
  | nil => exact ⟨h, rfl⟩
  | cons b pieces ih =>
    have hb : (w.bytes b).full = true ∧ (w.bytes b).out = w.out := by
      unfold ResultWriter.bytes
      dsimp only
      rw [if_pos h]
      exact ⟨h, rfl⟩
    obtain ⟨hfull, hout⟩ := ih hb.1
    exact ⟨hfull, hout.trans hb.2⟩

theorem patchU32_full (h : w.full = true) (offset value : Nat) : w.patchU32 offset value = w := by
  unfold ResultWriter.patchU32
  rw [h]
  rfl

theorem patchU32_keeps_full (offset value : Nat) : (w.patchU32 offset value).full = w.full := by
  unfold ResultWriter.patchU32
  split <;> rfl

/-- **Pieces are copied as long as they fit**, and none behind the first that does not. -/
theorem Holds.foldl_out (h : Holds out start text w) (hfull : w.full = false) (pieces : List Bytes) :
    (pieces.foldl ResultWriter.bytes w).out =
      placed out start (text ++ (fitting (out.length - (start + text.length)) pieces).flatten) := by
  induction pieces generalizing text w with
  | nil =>
    rw [fitting, List.flatten_nil, List.append_nil]
    exact (h.fits hfull).2.2
  | cons b pieces ih =>
    obtain ⟨hroom, hpos, hout⟩ := h.fits hfull
    have hnext := h.bytes b
    rw [List.foldl_cons, fitting]
    by_cases hb : b.length ≤ out.length - (start + text.length)
    · -- the piece fits, and the writer is as good as before it
      have hgoes : (w.bytes b).full = false := by
        cases hcase : (w.bytes b).full with
        | false => rfl
        | true =>
          have hshort := hnext.short hcase
          rw [List.length_append] at hshort
          omega
      have hleft : out.length - (start + (text ++ b).length) =
          out.length - (start + text.length) - b.length := by
        rw [List.length_append]
        omega
      rw [ih hnext hgoes, hleft, if_pos hb, List.flatten_cons, List.append_assoc]
    · -- the piece does not fit: it marks the writer full, and leaves the buffer alone
      have hstops : (w.bytes b).full = true ∧ (w.bytes b).out = w.out := by
        have hno : ¬ w.pos + b.length ≤ w.out.length := by
          rw [hpos, h.length]
          omega
        unfold ResultWriter.bytes
        dsimp only
        rw [if_neg (by rw [hfull]; exact Bool.false_ne_true), if_neg hno]
        exact ⟨rfl, rfl⟩
      rw [(foldl_bytes_full hstops.1 pieces).2, hstops.2, if_neg hb, List.flatten_nil,
        List.append_nil]
      exact hout

theorem commit_small (h : w.out.length < w.needed) (header : Bytes) :
    w.commit header = (w.needed, w.out) := by
  unfold ResultWriter.commit
  rw [if_pos (by rw [decide_eq_true h, Bool.or_true])]

end ResultWriter

/-! ## Sections -/

/-- The pairs that are taken are appended piece by piece. -/
theorem writePairsFrom_foldl {decode : Bytes → Bytes → Bytes × Bytes} {f : Bytes → Bytes}
    (hdecode : ∀ src scratch, (decode src scratch).1 = f src) (maxPairs : Nat)
    (ps : List (Bytes × Bytes)) (w : ResultWriter) (scratch : Bytes) (count : Nat) :
    (writePairsFrom decode maxPairs ps w scratch count).1 =
      (((cappedPairs maxPairs count ps).map fun p => (f p.1, f p.2)).flatMap pairPieces).foldl
        ResultWriter.bytes w := by
  induction ps generalizing w scratch count with
  | nil =>
    rw [cappedPairs_nil]
    rfl
  | cons p ps ih =>
    unfold writePairsFrom
    by_cases hstop : 0 < maxPairs ∧ maxPairs ≤ count
    · rw [if_pos hstop, cappedPairs_stop hstop]
      rfl
    · rw [if_neg hstop, cappedPairs_more hstop]
      dsimp only
      rw [ih, hdecode, hdecode]
      rfl

/-- What is written of some sections where there is that much room. -/
def leftText (room : Nat) : List (List (Bytes × Bytes)) → Bytes
  | [] => []
  | ps :: rest =>
    if (packedText ps).length ≤ room then
      packedText ps ++ leftText (room - (packedText ps).length) rest
    else (fitting room (sectionPieces ps)).flatten

theorem length_packedText_ge (ps : List (Bytes × Bytes)) : 4 ≤ (packedText ps).length := by
  rw [packedText, List.length_append, length_le32]
  omega

section

variable {room : Nat} {ss : List (List (Bytes × Bytes))}

/-- Without room for a count, nothing is written. -/
theorem leftText_small (h : room < 4) (ss : List (List (Bytes × Bytes))) : leftText room ss = [] := by
  cases ss with
  | nil => rfl
  | cons ps rest =>
    have hge := length_packedText_ge ps
    rw [leftText, if_neg (by omega), sectionPieces, fitting, length_le32, if_neg (Nat.not_le.mpr h)]
    rfl

/-- Sections that fit are there in full. -/
theorem leftText_append (h : (ss.flatMap packedText).length ≤ room) (ps : List (Bytes × Bytes)) :
    leftText room (ss ++ [ps]) =
      ss.flatMap packedText ++ leftText (room - (ss.flatMap packedText).length) [ps] := by
  induction ss generalizing room with
  | nil => rfl
  | cons s ss ih =>
    rw [List.flatMap_cons, List.length_append] at h
    rw [List.cons_append, leftText, if_pos (by omega), ih (by omega), List.flatMap_cons,
      List.append_assoc, List.length_append, Nat.sub_add_eq]

/-- Nothing is written behind a section that does not fit. -/
theorem leftText_append_short (h : room < (ss.flatMap packedText).length)
    (ps : List (Bytes × Bytes)) : leftText room (ss ++ [ps]) = leftText room ss := by
  induction ss generalizing room with
  | nil => exact absurd h (Nat.not_lt_zero _)
  | cons s ss ih =>
    rw [List.flatMap_cons, List.length_append] at h
    rw [List.cons_append, leftText, leftText]
    split
    · next hs => rw [ih (by omega)]
    · rfl

end

/-- The writer has taken some sections, and the buffer shows what of them fits. -/
structure Leaves (out : Bytes) (start : Nat) (ss : List (List (Bytes × Bytes))) (w : ResultWriter) :
    Prop where
  holds : w.Holds out start (ss.flatMap packedText)
  left : w.out = placed out start (leftText (out.length - start) ss)

section

variable {out : Bytes} {start : Nat} {ss : List (List (Bytes × Bytes))} {w : ResultWriter}

theorem leaves_new (out : Bytes) (start : Nat) : Leaves out start [] (ResultWriter.new out start) where
  holds := ResultWriter.holds_new out start
  left := (placed_nil out start).symm

/-- **One section more**: where the writer still writes, in full or up to the piece that does not
fit; else nothing. -/
theorem Leaves.section {decode : Bytes → Bytes → Bytes × Bytes} {f : Bytes → Bytes}
    (hdecode : ∀ src scratch, (decode src scratch).1 = f src) (h : Leaves out start ss w)
    (pairs : List (Bytes × Bytes)) (maxPairs : Nat) :
    Leaves out start (ss ++ [cappedPairs maxPairs 0 (pairs.map fun p => (f p.1, f p.2))])
      (writePairSection decode w pairs maxPairs).1 := by
  have hholds := (h.holds.writePairSection hdecode pairs maxPairs).1
  rw [← cappedPairs_map] at hholds ⊢
  generalize htaken : (cappedPairs maxPairs 0 pairs).map (fun p => (f p.1, f p.2)) = taken at hholds ⊢
  have hpieces : (writePairsFrom decode maxPairs pairs (w.u32 0) [] 0).1 =
      (sectionPieces taken).foldl ResultWriter.bytes w := by
    rw [writePairsFrom_foldl hdecode, htaken]
    rfl
  refine ⟨?_, ?_⟩
  · rw [List.flatMap_append, List.flatMap_singleton]
    exact hholds
  · unfold writePairSection at hholds ⊢
    dsimp only at hholds ⊢
    rw [hpieces] at hholds ⊢
    cases hfull : w.full with
    | true =>
      -- a section in front did not fit
      obtain ⟨hstays, hsame⟩ := ResultWriter.foldl_bytes_full hfull (sectionPieces taken)
      rw [ResultWriter.patchU32_full hstays, hsame, h.left]
      have hshort := h.holds.short hfull
      by_cases hstart : start ≤ out.length
      · rw [leftText_append_short (by omega)]
      · rw [leftText_small (by omega), leftText_small (by omega)]
    | false =>
      obtain ⟨hroom, -, -⟩ := h.holds.fits hfull
      rw [leftText_append (by omega), leftText, Nat.sub_sub]
      by_cases hfits : (packedText taken).length ≤ out.length - (start + (ss.flatMap packedText).length)
      · rw [if_pos hfits, leftText, List.append_nil]
        refine (hholds.fits (Bool.eq_false_iff.mpr fun hstop => ?_)).2.2
        have hshort := hholds.short hstop
        rw [List.length_append] at hshort
        omega
      · -- the count stays zero
        have hstops : ((sectionPieces taken).foldl ResultWriter.bytes w).full = true := by
          rw [← ResultWriter.patchU32_keeps_full]
          refine Bool.not_eq_false _ |>.mp fun hgoes => ?_
          have hall := (hholds.fits hgoes).1
          rw [List.length_append] at hall
          omega
        rw [if_neg hfits, ResultWriter.patchU32_full hstops, h.holds.foldl_out hfull]

/-- A stage that is not in the plan leaves the writer as it is. -/
theorem Leaves.optional {written : ResultWriter × Bool} {ps : List (Bytes × Bytes)}
    (h : Leaves out start ss w) (present : Bool) (hwritten : Leaves out start (ss ++ [ps]) written.1) :
    Leaves out start (ss ++ if present then [ps] else []) (if present then written else (w, false)).1 := by
  cases present with
  | false =>
    show Leaves out start (ss ++ []) w
    rwa [List.append_nil]
  | true => exact hwritten

end

/-! ## A run -/

namespace NativeRoute

/-- The sections of the plan, with the pairs that they take. -/
def sections (route : NativeRoute) (f : RouteFrame) : List (List (Bytes × Bytes)) :=
  (if route.parseQuery then [cappedPairs route.maxPairs 0 (queryPairs f.query)] else []) ++
    if route.parseCookies then [cappedPairs route.maxPairs 0 (cookiePairs f.cookie)] else []

theorem leaves_writeSections (route : NativeRoute) (f : RouteFrame) (out : Bytes) :
    Leaves out resultHeaderLen (route.sections f)
      (route.writeSections f (ResultWriter.new out resultHeaderLen)).1 := by
  have hnew := leaves_new out resultHeaderLen
  have hquery := hnew.section decodeFormComponentScratch_fst (rawQueryPairs f.query) route.maxPairs
  rw [map_rawQueryPairs] at hquery
  have hfirst := hnew.optional route.parseQuery hquery
  rw [List.nil_append] at hfirst
  have hcookie := hfirst.section rawComponent_fst (cookiePairs f.cookie) route.maxPairs
  rw [show ((cookiePairs f.cookie).map fun p => (id p.1, id p.2)) = cookiePairs f.cookie from
    List.map_id _] at hcookie
  exact hfirst.optional route.parseCookies hcookie

theorem length_sections (crates : Crates) (route : NativeRoute) (f : RouteFrame) :
    resultHeaderLen + ((route.sections f).flatMap packedText).length =
      ((route.result crates f).bytes route.parseQuery route.parseCookies).length := by
  have htext : (route.sections f).flatMap packedText =
      sectionText route.parseQuery (route.result crates f).query ++
        sectionText route.parseCookies (route.result crates f).cookie := by
    unfold sections result sectionText
    cases route.parseQuery <;> cases route.parseCookies <;> simp
  rw [htext, RouteResult.bytes, show resultHeaderLen = 4 + 4 from rfl]
  simp only [List.length_append, length_le32]
  omega

/-- **A run that does not fit** answers the size of the result, and leaves in the buffer what was
copied until then. -/
theorem run_small (crates : Crates) (route : NativeRoute) {frame : Bytes} {f : RouteFrame}
    (hframe : readRouteFrame frame = .ok f) {out : Bytes}
    (hsmall : out.length <
      ((route.result crates f).bytes route.parseQuery route.parseCookies).length) :
    route.run crates frame out =
      .ok (((route.result crates f).bytes route.parseQuery route.parseCookies).length,
        placed out resultHeaderLen (leftText (out.length - resultHeaderLen) (route.sections f))) := by
  have hleaves := route.leaves_writeSections f out
  have hneeded := hleaves.holds.needed
  rw [route.length_sections crates f] at hneeded
  rw [NativeRoute.run, hframe]
  show Except.ok (ResultWriter.commit _ _) = _
  rw [ResultWriter.commit_small (by rw [hneeded, hleaves.holds.length]; exact hsmall), hneeded,
    hleaves.left]

/-- **A buffer that is too small is left as it was** just if what is copied before the writer finds
that out is there already. -/
theorem run_untouched_iff (crates : Crates) (route : NativeRoute) {frame : Bytes} {f : RouteFrame}
    (hframe : readRouteFrame frame = .ok f) (out : Bytes)
    (hsmall : out.length <
      ((route.result crates f).bytes route.parseQuery route.parseCookies).length) :
    route.run crates frame out =
        .ok (((route.result crates f).bytes route.parseQuery route.parseCookies).length, out) ↔
      leftText (out.length - resultHeaderLen) (route.sections f) <+: out.drop resultHeaderLen := by
  rw [route.run_small crates hframe hsmall, Except.ok.injEq, Prod.mk.injEq, and_iff_right rfl,
    placed_eq_self_iff]

/-- The query `a=1`, and no cookies. -/
def queryFrame : Bytes := le32 0 ++ (le32 3 ++ (utf8 "a=1" ++ le32 0))

/-- A buffer with room for the count, which has been zero before. -/
theorem run_untouched_zeros :
    readRouteFrame queryFrame = .ok ⟨false, utf8 "a=1", [], []⟩ ∧
      NativeRoute.run ⟨fun _ _ => 0, fun _ => true⟩ { parseQuery := true } queryFrame
          (List.replicate 8 255 ++ [0, 0, 0, 0]) =
        .ok (22, List.replicate 8 255 ++ [0, 0, 0, 0]) := by
  have hframe : readRouteFrame queryFrame = .ok ⟨false, utf8 "a=1", [], []⟩ := rfl
  exact ⟨hframe, (run_untouched_iff ⟨fun _ _ => 0, fun _ => true⟩ { parseQuery := true } hframe
    (List.replicate 8 255 ++ [0, 0, 0, 0]) (by decide)).mpr (by decide)⟩

/-- A buffer with room for the count, which is written. -/
theorem run_writes_count :
    NativeRoute.run ⟨fun _ _ => 0, fun _ => true⟩ { parseQuery := true } queryFrame
        (List.replicate 12 255) =
      .ok (22, List.replicate 8 255 ++ [0, 0, 0, 0]) := by
  rfl

end NativeRoute

end Castrum
