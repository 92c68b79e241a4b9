import Castrum.Ingress.Pipeline

/-!
# Castrum — what a result says (`rust/ingress/pipeline.rs`, `rust/ingress/output.rs`)

A reader of a result has the header and the lengths in it. Here a result is read back: whether the
sections lie where the header says, and whether one that is missing is reported.

* `writePass_read` — the lengths and the flag of a request that passes;
* `noSilentLoss_iff` — the one section that is lost without a report;
* `handle_laidOut` — the layout, for results whose sections fit 32 bits each.
-/

namespace Castrum

open Ascii

/-! ## A pass, read back -/

theorem sectionLengths_le (emit : Bool) (cookies query : Nat) (envelope : Nat → Nat → Nat)
    {cap : Nat} (hcap : outDataStart ≤ cap) :
    let l := sectionLengths emit cookies query envelope cap
    outDataStart + l.cookies + l.query + l.body ≤ cap := by
  unfold sectionLengths
  dsimp only
  generalize hc : (if outDataStart + cookies ≤ cap then cookies % 2 ^ 32 else 0) = c
  have hcLe : outDataStart + c ≤ cap := by
    rw [← hc]
    split <;> omega
  generalize hq : (if (query ≠ 0 ∧ outDataStart + c ≠ cap) ∧ outDataStart + c + query ≤ cap then
    query % 2 ^ 32 else 0) = q
  have hqLe : outDataStart + c + q ≤ cap := by
    rw [← hq]
    split <;> omega
  split <;> omega

section

variable {inner : IngressInner}

variable (inner) in
/-- **A request that passes, read back**: the lengths of its sections, and when it is reported as
truncated. -/
theorem writePass_read (url rid : Bytes) {p : Pass} (hflags : Clears p.flags flagBodyTruncated)
    {out : Bytes} (hout : outDataStart ≤ out.length) :
    let r := writePass inner url rid p out
    let l := sectionLengths inner.emitMetadataJson (cookiesText inner p.headers).length
      (queryText inner p.rawQuery).length (envelopeLen rid (extractPath url)) out.length
    (Sections.read r.2).cookies.length = l.cookies ∧ (Sections.read r.2).query.length = l.query ∧
      (Sections.read r.2).body.length = l.body % 2 ^ 32 ∧
      (bodyTruncated r.2 ↔ l.truncated = true ∨ inner.emitMetadataJson = true ∧ l.body = 0) := by
  dsimp only
  obtain ⟨hlen, hlengths⟩ := writeBodySections_lengths inner p.headers p.rawQuery url rid hout
  have hle := sectionLengths_le inner.emitMetadataJson (cookiesText inner p.headers).length
    (queryText inner p.rawQuery).length (envelopeLen rid (extractPath url)) hout
  rw [← hlengths] at hle ⊢
  dsimp only at hle ⊢
  set written := writeBodySections inner p.headers p.rawQuery url rid out
  -- the header that is written, and what is behind it
  obtain ⟨f, hresult, hc, hq, hb, hf⟩ : ∃ f : HeaderFields,
      (writePass inner url rid p out).2 = f.bytes ++ written.2.drop outDataStart ∧
      f.cookiesJsonLen = written.1.cookiesJsonLen ∧ f.queryJsonLen = written.1.queryJsonLen ∧
      f.bodyJsonLen = UInt32.ofNat written.1.bodyJsonLen ∧
      ∃ flags, Clears flags flagBodyTruncated ∧ f.flags =
        if written.1.truncated || (inner.emitMetadataJson && written.1.bodyJsonLen = 0) then
          flags ||| flagBodyTruncated
        else flags := by
    have hhas : Clears flagHasCookies flagBodyTruncated ∧ Clears flagHasQuery flagBodyTruncated :=
      ⟨rfl, rfl⟩
    have hcookies : Clears (if 2 < written.1.cookiesJsonLen then p.flags ||| flagHasCookies
        else p.flags) flagBodyTruncated := .ite (hflags.or hhas.1) hflags
    exact ⟨_, rfl, rfl, rfl, rfl, _, .ite (hcookies.or hhas.2) hcookies, rfl⟩
  have hbLen : f.bodyJsonLen.toNat = written.1.bodyJsonLen % 2 ^ 32 := by
    rw [hb, UInt32.toNat_ofNat']
  rw [hresult, Sections.read_append]
  dsimp only
  simp only [List.length_take, List.length_drop, hlen, hbLen, hc, hq]
  refine ⟨by omega, by omega, by omega, ?_⟩
  obtain ⟨flags, hclear, hflagsEq⟩ := hf
  rw [bodyTruncated, flags_append, hflagsEq, ← UInt32.toNat_and]
  have hzero : (flags &&& flagBodyTruncated).toNat = 0 := by
    rw [show flags &&& flagBodyTruncated = 0 from hclear]
    rfl
  by_cases htrunc : (written.1.truncated ||
      (inner.emitMetadataJson && decide (written.1.bodyJsonLen = 0))) = true
  · rw [if_pos htrunc, or_and_flag, show flags &&& flagBodyTruncated = 0 from hclear]
    refine iff_of_true (by decide) ?_
    simpa using htrunc
  · rw [if_neg htrunc, hzero]
    refine iff_of_false (by decide) ?_
    simpa using htrunc

/-! ## Lost sections -/

/-- Some section is missing, or shorter than in the other result. -/
def Sections.Lossy (s full : Sections) : Prop :=
  s.cookies.length < full.cookies.length ∨ s.query.length < full.query.length ∨
    s.body.length < full.body.length

/-- Whatever a larger buffer would have held more of is reported as truncated. -/
def NoSilentLoss (entry : Bytes → Except String (Nat × Bytes)) (out : Bytes) : Prop :=
  ∀ large r full, out.length ≤ large.length → entry out = .ok r → entry large = .ok full →
    (Sections.read r.2).Lossy (Sections.read full.2) → bodyTruncated r.2

/-- The cookies fill the buffer to its last byte, so the query behind them is not tried; and without
an envelope nothing else is missing. -/
structure DropsQuery (inner : IngressInner) (headers : HeaderRefs) (url : Bytes) (cap : Nat) :
    Prop where
  noEnvelope : inner.emitMetadataJson = false
  full : outDataStart + (cookiesText inner headers).length = cap
  cookies_lt : (cookiesText inner headers).length < 2 ^ 32
  query_ne : (queryText inner (extractQuery url)).length % 2 ^ 32 ≠ 0

theorem envelopeLen_pos (rid path : Bytes) (c q : Nat) : 0 < envelopeLen rid path c q :=
  Nat.succ_pos _

/-- An envelope that is there is there in a larger buffer too. -/
theorem envelope_eq {emit : Bool} {pos e cap cap' : Nat} (hle : cap ≤ cap')
    (hbody : emit = true → (if emit = true ∧ pos + e ≤ cap then e else 0) ≠ 0) :
    (if emit = true ∧ pos + e ≤ cap then e else 0) =
      if emit = true ∧ pos + e ≤ cap' then e else 0 := by
  by_cases hemit : emit = true
  · have hroom : pos + e ≤ cap := by
      by_contra hno
      exact hbody hemit (if_neg fun h => hno h.2)
    rw [if_pos ⟨hemit, hroom⟩, if_pos ⟨hemit, hroom.trans hle⟩]
  · rw [if_neg fun h => hemit h.1, if_neg fun h => hemit h.1]

/-- Where nothing is reported, a larger buffer has room for nothing more, the dropped query apart. -/
theorem sectionLengths_eq {emit : Bool} {cookies query cap cap' : Nat} {envelope : Nat → Nat → Nat}
    (henvelope : ∀ c q, 0 < envelope c q) (hle : cap ≤ cap')
    (htrunc : (sectionLengths emit cookies query envelope cap).truncated = false)
    (hbody : emit = true → (sectionLengths emit cookies query envelope cap).body ≠ 0)
    (hdrop : ¬ (emit = false ∧ outDataStart + cookies = cap ∧ cookies < 2 ^ 32 ∧
      query % 2 ^ 32 ≠ 0)) :
    let l := sectionLengths emit cookies query envelope cap
    let l' := sectionLengths emit cookies query envelope cap'
    l.cookies = l'.cookies ∧ l.query = l'.query ∧ l.body = l'.body := by
  unfold sectionLengths at htrunc hbody ⊢
  dsimp only at htrunc hbody ⊢
  rw [decide_eq_false_iff_not, not_or] at htrunc
  obtain ⟨hfitC, hfitQ⟩ := htrunc
  have hcookies : outDataStart + cookies ≤ cap := by omega
  rw [if_pos hcookies] at hfitQ hbody ⊢
  rw [if_pos (hcookies.trans hle)]
  refine ⟨rfl, ?_⟩
  have hmod : cookies % 2 ^ 32 ≤ cookies := Nat.mod_le _ _
  generalize hc : cookies % 2 ^ 32 = c at hfitQ hbody hmod ⊢
  -- what becomes of the query in either buffer
  have hquery : (if (query ≠ 0 ∧ outDataStart + c ≠ cap) ∧ outDataStart + c + query ≤ cap then
        query % 2 ^ 32 else 0) =
      if (query ≠ 0 ∧ outDataStart + c ≠ cap') ∧ outDataStart + c + query ≤ cap' then
        query % 2 ^ 32 else 0 := by
    by_cases hnone : query = 0
    · rw [if_neg fun h => h.1.1 hnone, if_neg fun h => h.1.1 hnone]
    by_cases hfull : outDataStart + c = cap
    · -- the buffer is full: there is no room for an envelope either
      have huntried : (if (query ≠ 0 ∧ outDataStart + c ≠ cap) ∧ outDataStart + c + query ≤ cap then
          query % 2 ^ 32 else 0) = 0 := if_neg fun h => h.1.2 hfull
      rw [huntried] at hbody ⊢
      have hpos := henvelope c 0
      have hemit : emit = false := by
        by_contra hemit
        rw [Bool.not_eq_false] at hemit
        apply hbody hemit
        rw [if_neg]
        rintro ⟨-, hroom⟩
        omega
      have hzero : query % 2 ^ 32 = 0 := by
        by_contra hne
        exact hdrop ⟨hemit, by omega, by omega, hne⟩
      rw [hzero]
      split <;> rfl
    · -- the query was tried and fits, so it fits the larger buffer
      have hfit : outDataStart + c + query ≤ cap := by
        by_contra hno
        exact hfitQ ⟨⟨hnone, hfull⟩, by omega⟩
      rw [if_pos ⟨⟨hnone, hfull⟩, hfit⟩, if_pos ⟨⟨hnone, by omega⟩, by omega⟩]
  rw [← hquery]
  exact ⟨rfl, envelope_eq hle hbody⟩

/-- The dropped query is not reported, and a buffer with room for it holds it. -/
theorem sectionLengths_drop {cookies query cap : Nat} (envelope : Nat → Nat → Nat)
    (hfull : outDataStart + cookies = cap) (hcookies : cookies < 2 ^ 32)
    (hquery : query % 2 ^ 32 ≠ 0) :
    let l := sectionLengths false cookies query envelope cap
    l.truncated = false ∧ l.query = 0 ∧
      (sectionLengths false cookies query envelope (cap + query)).query = query % 2 ^ 32 := by
  have hne : query ≠ 0 := by
    rintro rfl
    exact hquery rfl
  unfold sectionLengths
  dsimp only
  rw [if_pos (show outDataStart + cookies ≤ cap by omega),
    if_pos (show outDataStart + cookies ≤ cap + query by omega), Nat.mod_eq_of_lt hcookies]
  refine ⟨?_, ?_, ?_⟩
  · rw [decide_eq_false_iff_not]
    omega
  · rw [if_neg fun h => h.1.2 hfull]
  · rw [if_pos ⟨⟨hne, by omega⟩, by omega⟩]

/-- A terminal has no sections. -/
theorem Terminal.read_write (t : Terminal) (out : Bytes) :
    Sections.read (t.write out).2 = ⟨[], [], []⟩ := by
  show Sections.read (t.fields.bytes ++ out.drop outDataStart) = _
  rw [Sections.read_append]
  rfl

/-- What is lost of a request, once it is known what becomes of it. -/
theorem finish_noSilentLoss_iff (url rid : Bytes) {r : Except Terminal Pass}
    (hr : ∀ p, r = .ok p → p.rawQuery = (if inner.parseQuery then extractQuery url else []) ∧
      Clears p.flags flagBodyTruncated) {out : Bytes} (hout : outDataStart ≤ out.length) :
    (∀ large : Bytes, out.length ≤ large.length →
      (Sections.read (finish inner url rid r out).2).Lossy
        (Sections.read (finish inner url rid r large).2) →
      bodyTruncated (finish inner url rid r out).2) ↔
    ¬ ∃ p, r = .ok p ∧ DropsQuery inner p.headers url out.length := by
  cases r with
  | error t =>
    refine iff_of_true ?_ (by rintro ⟨p, hp, -⟩; exact nomatch hp)
    intro large _ hlossy
    change (Sections.read (t.write out).2).Lossy (Sections.read (t.write large).2) at hlossy
    rw [t.read_write, t.read_write] at hlossy
    rcases hlossy with h | h | h <;> exact absurd h (Nat.lt_irrefl _)
  | ok p =>
    obtain ⟨hquery, hflags⟩ := hr p rfl
    have htext : queryText inner p.rawQuery = queryText inner (extractQuery url) := by
      rw [hquery]
      by_cases hparse : inner.parseQuery = true
      · rw [if_pos hparse]
      · unfold queryText
        rw [if_neg fun h => hparse h.1, if_neg fun h => hparse h.1]
    have hread := writePass_read inner url rid hflags hout
    dsimp only at hread
    rw [htext] at hread
    obtain ⟨hc, hq, hb, htrunc⟩ := hread
    constructor
    · -- the dropped query is there in a buffer with more room
      rintro hall ⟨p', hp', hdrop⟩
      injection hp' with hp'
      subst hp'
      obtain ⟨hquiet, hzero, hlarge⟩ := sectionLengths_drop
        (envelopeLen rid (extractPath url)) hdrop.full hdrop.cookies_lt hdrop.query_ne
      let more := List.replicate (queryText inner (extractQuery url)).length (0 : UInt8)
      have hlen : (out ++ more).length = out.length + (queryText inner (extractQuery url)).length := by
        rw [List.length_append, List.length_replicate]
      have hreadLarge := writePass_read inner url rid hflags
        (show outDataStart ≤ (out ++ more).length by omega)
      dsimp only at hreadLarge
      rw [htext, hlen] at hreadLarge
      have hreported := hall (out ++ more) (by omega) (.inr (.inl (by
        show (Sections.read (writePass inner url rid p out).2).query.length <
          (Sections.read (writePass inner url rid p (out ++ more)).2).query.length
        rw [hq, hreadLarge.2.1, hdrop.noEnvelope, hzero, hlarge]
        have hne := hdrop.query_ne
        omega)))
      change bodyTruncated (writePass inner url rid p out).2 at hreported
      rw [htrunc, hdrop.noEnvelope, hquiet] at hreported
      rcases hreported with h | ⟨h, -⟩ <;> exact nomatch h
    · intro hno large hle hlossy
      change bodyTruncated (writePass inner url rid p out).2
      by_contra hquiet
      rw [htrunc, not_or] at hquiet
      have heq := sectionLengths_eq (envelopeLen_pos rid (extractPath url)) hle
        (Bool.eq_false_iff.mpr hquiet.1) (fun hemit hzero => hquiet.2 ⟨hemit, hzero⟩)
        (fun h => hno ⟨p, rfl, h.1, h.2.1, h.2.2.1, h.2.2.2⟩)
      have hreadLarge := writePass_read inner url rid hflags (hout.trans hle)
      dsimp only at hreadLarge heq
      rw [htext] at hreadLarge
      obtain ⟨hc', hq', hb', -⟩ := hreadLarge
      rcases hlossy with h | h | h
      · change (Sections.read (writePass inner url rid p out).2).cookies.length <
          (Sections.read (writePass inner url rid p large).2).cookies.length at h
        omega
      · change (Sections.read (writePass inner url rid p out).2).query.length <
          (Sections.read (writePass inner url rid p large).2).query.length at h
        omega
      · change (Sections.read (writePass inner url rid p out).2).body.length <
          (Sections.read (writePass inner url rid p large).2).body.length at h
        rw [hb, hb', heq.2.2] at h
        exact absurd h (Nat.lt_irrefl _)

/-- The request passes, and its query is dropped in a buffer of `cap` bytes. -/
def Drops (crates : Crates) (inner : IngressInner) (mk : MethodKind)
    (url ip headersPacked body : Bytes) (now : UInt64) (cap : Nat) : Prop :=
  ∃ p, outcome crates inner mk url ip headersPacked body now = .ok p ∧
    DropsQuery inner p.headers url cap

/-- Silent loss, for an entry that always answers. -/
theorem noSilentLoss_of_finish {entry : Bytes → Except String (Nat × Bytes)}
    {result : Bytes → Nat × Bytes}
    (h : ∀ out : Bytes, outDataStart ≤ out.length → entry out = .ok (result out)) {out : Bytes}
    (hout : outDataStart ≤ out.length) :
    NoSilentLoss entry out ↔ ∀ large : Bytes, out.length ≤ large.length →
      (Sections.read (result out).2).Lossy (Sections.read (result large).2) →
      bodyTruncated (result out).2 := by
  constructor
  · intro hall large hle hlossy
    exact hall large _ _ hle (h out hout) (h large (hout.trans hle)) hlossy
  · intro hall large r full hle hr hfull hlossy
    rw [h out hout, Except.ok.injEq] at hr
    rw [h large (hout.trans hle), Except.ok.injEq] at hfull
    rw [← hr, ← hfull] at hlossy
    rw [← hr]
    exact hall large hle hlossy

theorem handleComponents_noSilentLoss_iff (crates : Crates) (inner : IngressInner) (mk : MethodKind)
    (url ip rid headersPacked body : Bytes) (now : UInt64) {out : Bytes}
    (hout : outDataStart ≤ out.length) :
    NoSilentLoss (fun out =>
        (handleComponents crates inner mk url ip rid headersPacked body out now).1) out ↔
      ¬ Drops crates inner mk url ip headersPacked body now out.length := by
  rw [noSilentLoss_of_finish
    (fun out => handleComponents_eq_finish crates inner mk url ip rid headersPacked body now) hout]
  exact finish_noSilentLoss_iff url rid (fun p => outcome_ok) hout

theorem handlePacked_noSilentLoss_iff (crates : Crates) (inner : IngressInner) {input : Bytes}
    (hinput : input ≠ []) (body : Bytes) (now : UInt64) {out : Bytes}
    (hout : outDataStart ≤ out.length) :
    NoSilentLoss (fun out => (handlePacked crates inner input body out now).1) out ↔
      ∀ f, readFrame inner.limits input = .ok f →
        ¬ Drops crates inner f.method f.url f.ip f.headersPacked body now out.length := by
  cases hframe : readFrame inner.limits input with
  | error t =>
    have hentry : ∀ out : Bytes, outDataStart ≤ out.length →
        (handlePacked crates inner input body out now).1 = .ok (t.write out) := by
      intro out hout
      rw [handlePacked_eq crates inner hinput hout, hframe]
    rw [noSilentLoss_of_finish hentry hout]
    refine iff_of_true ?_ nofun
    intro large _ hlossy
    rw [t.read_write, t.read_write] at hlossy
    rcases hlossy with h | h | h <;> exact absurd h (Nat.lt_irrefl _)
  | ok f =>
    have hentry : ∀ out : Bytes, outDataStart ≤ out.length →
        (handlePacked crates inner input body out now).1 = .ok (finish inner f.url f.rid
          (outcome crates inner f.method f.url f.ip f.headersPacked body now) out) := by
      intro out hout
      rw [handlePacked_eq crates inner hinput hout, hframe]
    rw [noSilentLoss_of_finish hentry hout]
    simp only [Except.ok.injEq, forall_eq']
    exact finish_noSilentLoss_iff f.url f.rid (fun p => outcome_ok) hout

/-- **No section is lost in silence**, through either entry, unless the cookies leave the query not a
single byte and there is no envelope. -/
theorem noSilentLoss_iff (crates : Crates) (inner : IngressInner) (body : Bytes) (now : UInt64)
    {out : Bytes} (hout : outDataStart ≤ out.length) :
    (∀ mk url ip rid headersPacked,
      NoSilentLoss (fun out =>
          (handleComponents crates inner mk url ip rid headersPacked body out now).1) out ↔
        ¬ Drops crates inner mk url ip headersPacked body now out.length) ∧
    ∀ input, input ≠ [] →
      (NoSilentLoss (fun out => (handlePacked crates inner input body out now).1) out ↔
        ∀ f, readFrame inner.limits input = .ok f →
          ¬ Drops crates inner f.method f.url f.ip f.headersPacked body now out.length) :=
  ⟨fun mk url ip rid headersPacked =>
    handleComponents_noSilentLoss_iff crates inner mk url ip rid headersPacked body now hout,
  fun _ hinput => handlePacked_noSilentLoss_iff crates inner hinput body now hout⟩

/-- An instance that parses queries. -/
def sampleCrates : Crates := ⟨fun _ _ => 0, fun _ => true⟩

def sampleQueryInner : IngressInner := { parseQuery := true }

/-- In 49 bytes there is one to try the query in, so that its loss is reported. -/
theorem noSilentLoss_roomy :
    outDataStart ≤ (List.replicate 49 0 : Bytes).length ∧
    NoSilentLoss (fun out =>
        (handleComponents sampleCrates sampleQueryInner .get (utf8 "/?a=1") [] [] [] [] out 0).1)
      (List.replicate 49 0) := by
  refine ⟨by decide, ?_⟩
  rw [(noSilentLoss_iff sampleCrates sampleQueryInner [] 0 (by decide)).1]
  rintro ⟨p, -, hdrop⟩
  have hfull := hdrop.full
  change 48 + 0 = 49 at hfull
  omega

/-- In 48 bytes the query is not tried, and nothing says so; in 64 it is there. -/
theorem noSilentLoss_exact_fit :
    ¬ NoSilentLoss (fun out =>
        (handleComponents sampleCrates sampleQueryInner .get (utf8 "/?a=1") [] [] [] [] out 0).1)
      (List.replicate 48 0) := by
  let entry := fun out : Bytes =>
    (handleComponents sampleCrates sampleQueryInner .get (utf8 "/?a=1") [] [] [] [] out 0).1
  let read := fun r : Nat × Bytes => (u32At r.2 4, Sections.read r.2)
  have hsmall : (entry (List.replicate 48 0)).toOption.map read = some (0, ⟨[], [], []⟩) := by
    decide +kernel
  have hlarge : (entry (List.replicate 64 0)).toOption.map read =
      some (2, ⟨[], utf8 "\x7b\"a\":\"1\"\x7d", []⟩) := by
    decide +kernel
  -- The two buffers differ in the flag and in the query, and the small one reports no loss.
  intro h
  cases hr : entry (List.replicate 48 0) with
  | error e =>
    rw [hr] at hsmall
    exact nomatch hsmall
  | ok r =>
    cases hfull : entry (List.replicate 64 0) with
    | error e =>
      rw [hfull] at hlarge
      exact nomatch hlarge
    | ok full =>
      rw [hr] at hsmall
      rw [hfull] at hlarge
      obtain ⟨hflags, hsections⟩ := Prod.ext_iff.mp (Option.some.inj hsmall)
      obtain ⟨-, hlargeSections⟩ := Prod.ext_iff.mp (Option.some.inj hlarge)
      change u32At r.2 4 = 0 at hflags
      change Sections.read r.2 = _ at hsections
      change Sections.read full.2 = _ at hlargeSections
      apply h (List.replicate 64 0) r full (by decide) hr hfull
      · rw [hsections, hlargeSections]
        exact .inr (.inl (by decide))
      · rw [hflags]
        exact Nat.zero_and _

/-! ## The layout -/

/-- A result in a buffer of `cap` bytes: what is returned is the header and the three sections, which
lie one behind another; each section is empty or a JSON text to the letter of RFC 8259; and a terminal
has none. -/
structure LaidOut (cap : Nat) (r : Nat × Bytes) : Prop where
  size : r.2.length = cap
  fits : r.1 ≤ cap
  returned : r.1 = outDataStart + u32At r.2 32 + u32At r.2 36 + u32At r.2 44
  lengths : (Sections.read r.2).cookies.length = u32At r.2 32 ∧
    (Sections.read r.2).query.length = u32At r.2 36 ∧
    (Sections.read r.2).body.length = u32At r.2 44
  contiguous : r.2.take r.1 = r.2.take outDataStart ++ ((Sections.read r.2).cookies ++
    ((Sections.read r.2).query ++ (Sections.read r.2).body))
  json : ∀ part ∈ [(Sections.read r.2).cookies, (Sections.read r.2).query,
    (Sections.read r.2).body], part ≠ [] → IsStrictText part
  terminal : r.2[0]? ≠ some 0 → r.1 = outDataStart ∧ u32At r.2 32 = 0 ∧ u32At r.2 36 = 0 ∧
    u32At r.2 44 = 0

/-- A header over sections that are written one behind another. -/
theorem laidOut_append (f : HeaderFields) {cookies query body : Bytes} (rest : Bytes)
    (hc : f.cookiesJsonLen.toNat = cookies.length) (hq : f.queryJsonLen.toNat = query.length)
    (hb : f.bodyJsonLen.toNat = body.length)
    (hjson : ∀ part ∈ [cookies, query, body], part ≠ [] → IsStrictText part)
    (hterminal : f.verdict ≠ 0 → cookies = [] ∧ query = [] ∧ body = []) :
    LaidOut (outDataStart + (cookies ++ (query ++ (body ++ rest))).length)
      (outDataStart + f.cookiesJsonLen.toNat + f.queryJsonLen.toNat + f.bodyJsonLen.toNat,
        f.bytes ++ (cookies ++ (query ++ (body ++ rest)))) := by
  have hread : Sections.read (f.bytes ++ (cookies ++ (query ++ (body ++ rest)))) =
      ⟨cookies, query, body⟩ := by
    rw [Sections.read_append, hc, hq, hb, List.take_left, List.drop_left, List.take_left,
      ← List.drop_drop, List.drop_left, List.drop_left, List.take_left]
  have hlen : (cookies ++ (query ++ (body ++ rest))).length =
      cookies.length + query.length + body.length + rest.length := by
    simp only [List.length_append, Nat.add_assoc]
  constructor
  · show (f.bytes ++ _).length = _
    rw [List.length_append, f.length_bytes]
  · show outDataStart + _ + _ + _ ≤ _
    omega
  · show _ = outDataStart + u32At (f.bytes ++ _) 32 + u32At (f.bytes ++ _) 36 +
      u32At (f.bytes ++ _) 44
    rw [cookiesLen_append, queryLen_append, bodyLen_append]
  · show (Sections.read (f.bytes ++ _)).cookies.length = u32At (f.bytes ++ _) 32 ∧
      (Sections.read (f.bytes ++ _)).query.length = u32At (f.bytes ++ _) 36 ∧
      (Sections.read (f.bytes ++ _)).body.length = u32At (f.bytes ++ _) 44
    rw [cookiesLen_append, queryLen_append, bodyLen_append, hread]
    exact ⟨hc.symm, hq.symm, hb.symm⟩
  · -- the sections fill the space up to the announced end, with no gap
    dsimp only
    rw [hread, hc, hq, hb, ← f.length_bytes, List.take_left, Nat.add_assoc, Nat.add_assoc,
      List.take_length_add_append]
    have hwhole : cookies ++ (query ++ (body ++ rest)) = (cookies ++ (query ++ body)) ++ rest := by
      simp only [List.append_assoc]
    rw [hwhole, List.take_left' (by simp only [List.length_append])]
  · dsimp only
    rw [hread]
    exact hjson
  · intro hne
    obtain ⟨rfl, rfl, rfl⟩ := hterminal fun h => hne (by rw [head_append, h])
    dsimp only
    rw [cookiesLen_append, queryLen_append, bodyLen_append, hc, hq, hb]
    exact ⟨rfl, rfl, rfl, rfl⟩

theorem Terminal.write_laidOut (t : Terminal) {out : Bytes} (hout : outDataStart ≤ out.length) :
    LaidOut out.length (t.write out) := by
  have h := laidOut_append t.fields (out.drop outDataStart) rfl rfl rfl
    (show ∀ part ∈ [[], [], ([] : Bytes)], part ≠ [] → IsStrictText part by simp)
    (fun _ => ⟨rfl, rfl, rfl⟩)
  rwa [List.nil_append, List.nil_append, List.nil_append, List.length_drop,
    Nat.add_sub_cancel' hout] at h

theorem writePass_laidOut (url rid : Bytes) (p : Pass) {out : Bytes}
    (hout : outDataStart ≤ out.length)
    (hnarrow : (sectionsOf inner p.headers p.rawQuery url rid out.length).Narrow) :
    LaidOut out.length (writePass inner url rid p out) := by
  obtain ⟨hplaced, hroom, hc, hq, hb⟩ :=
    writeBodySections_placed inner p.headers p.rawQuery url rid hout hnarrow
  obtain ⟨hstrictC, hstrictQ, hstrictB⟩ :=
    sectionsOf_strict inner p.headers p.rawQuery url rid out.length
  have hbody32 := hnarrow.body_lt
  set written := writeBodySections inner p.headers p.rawQuery url rid out
  generalize sectionsOf inner p.headers p.rawQuery url rid out.length = s at *
  obtain ⟨cookies, query, body⟩ := s
  obtain ⟨f, hresult, hfc, hfq, hfb, hverdict⟩ : ∃ f : HeaderFields,
      writePass inner url rid p out =
        (outDataStart + f.cookiesJsonLen.toNat + f.queryJsonLen.toNat + f.bodyJsonLen.toNat,
          f.bytes ++ written.2.drop outDataStart) ∧
      f.cookiesJsonLen = written.1.cookiesJsonLen ∧ f.queryJsonLen = written.1.queryJsonLen ∧
      f.bodyJsonLen = UInt32.ofNat written.1.bodyJsonLen ∧ f.verdict = 0 :=
    ⟨_, rfl, rfl, rfl, rfl, rfl⟩
  dsimp only at hplaced hroom hc hq hb hstrictC hstrictQ hstrictB hbody32
  -- What stands behind the sections is what stood there before the call.
  let rest := out.drop (outDataStart + (cookies ++ (query ++ body)).length)
  have htail : written.2.drop outDataStart = cookies ++ (query ++ (body ++ rest)) := by
    have hdrop := drop_placed hout (cookies ++ (query ++ body)) 0
    rw [Nat.add_zero, List.drop_zero] at hdrop
    rw [hplaced, hdrop]
    simp only [List.append_assoc, rest]
  have hsize : outDataStart + (cookies ++ (query ++ (body ++ rest))).length = out.length := by
    rw [← htail, List.length_drop, hplaced, length_placed hroom]
    omega
  have hbodyLen : f.bodyJsonLen.toNat = body.length := by
    rw [hfb, UInt32.toNat_ofNat', hb, Nat.mod_eq_of_lt hbody32]
  have h := laidOut_append f rest (by rw [hfc, hc]) (by rw [hfq, hq]) hbodyLen
    (by
      intro part hpart
      simp only [List.mem_cons, List.not_mem_nil, or_false] at hpart
      rcases hpart with rfl | rfl | rfl
      · exact hstrictC
      · exact hstrictQ
      · exact hstrictB)
    (fun hne => absurd hverdict hne)
  rw [hsize] at h
  rw [hresult, htail]
  exact h

/-- The request is turned down, or every section that its result has in a buffer of `cap` bytes is
shorter than 4 GiB. -/
def NarrowResult (crates : Crates) (inner : IngressInner) (mk : MethodKind)
    (url ip rid headersPacked body : Bytes) (now : UInt64) (cap : Nat) : Prop :=
  ∀ p, outcome crates inner mk url ip headersPacked body now = .ok p →
    (sectionsOf inner p.headers p.rawQuery url rid cap).Narrow

/-- **Every result is laid out as its header says**, through either entry, where the lengths of its
sections fit the 32 bits they are announced in. -/
theorem handle_laidOut (crates : Crates) (inner : IngressInner) (body : Bytes) (now : UInt64)
    {out : Bytes} (hout : outDataStart ≤ out.length) :
    (∀ mk url ip rid headersPacked,
      NarrowResult crates inner mk url ip rid headersPacked body now out.length → ∃ r,
      (handleComponents crates inner mk url ip rid headersPacked body out now).1 = .ok r ∧
        LaidOut out.length r) ∧
    ∀ input, input ≠ [] →
      (∀ f, readFrame inner.limits input = .ok f →
        NarrowResult crates inner f.method f.url f.ip f.rid f.headersPacked body now out.length) →
      ∃ r, (handlePacked crates inner input body out now).1 = .ok r ∧ LaidOut out.length r := by
  have hfinish : ∀ url rid r,
      (∀ p, r = .ok p → (sectionsOf inner p.headers p.rawQuery url rid out.length).Narrow) →
        LaidOut out.length (finish inner url rid r out) := by
    intro url rid r hnarrow
    cases r with
    | error t => exact t.write_laidOut hout
    | ok p => exact writePass_laidOut url rid p hout (hnarrow p rfl)
  constructor
  · intro mk url ip rid headersPacked hnarrow
    exact ⟨_, handleComponents_eq_finish crates inner mk url ip rid headersPacked body now hout,
      hfinish _ _ _ hnarrow⟩
  · intro input hinput hnarrow
    rw [handlePacked_eq crates inner hinput hout]
    cases hframe : readFrame inner.limits input with
    | error t => exact ⟨_, rfl, t.write_laidOut hout⟩
    | ok f => exact ⟨_, rfl, hfinish _ _ _ (hnarrow f hframe)⟩

theorem handle_laidOut_sample :
    outDataStart ≤ (List.replicate 64 0 : Bytes).length ∧
    ∃ r, (handleComponents sampleCrates sampleQueryInner .get (utf8 "/?a=1") [] [] [] []
        (List.replicate 64 0) 0).1 = .ok r ∧ LaidOut 64 r :=
  ⟨by decide, (handle_laidOut sampleCrates sampleQueryInner [] 0 (by decide)).1 .get
    (utf8 "/?a=1") [] [] [] fun p _ =>
      sectionsOf_narrow sampleQueryInner p.headers p.rawQuery _ [] (by decide) (by decide)⟩

/-! ## A section beyond 32 bits -/

/-- An instance that parses queries up to the largest limits there are. -/
def wideInner : IngressInner :=
  { parseQuery := true, limits := { maxUrlBytes := 4294967295, maxQueryBytes := 4294967295 } }

/-- A url with one query name of `n` letters. -/
def wideUrl (n : Nat) : Bytes := 63 :: List.replicate n 97

theorem extractQuery_wideUrl (n : Nat) : extractQuery (wideUrl n) = List.replicate n 97 := by
  have hplain : (List.replicate n (97 : UInt8)).takeWhile (· ≠ 35) = List.replicate n 97 := by
    rw [List.takeWhile_replicate]
    rfl
  exact hplain

theorem queryText_wideUrl {n : Nat} (hn : n ≠ 0) :
    queryText wideInner (List.replicate n 97) = objectText [(List.replicate n 97, [])] := by
  unfold queryText
  rw [if_pos ⟨rfl, by rw [ne_eq, List.replicate_eq_nil_iff]; exact hn⟩, queryPairs_replicate hn]
  rfl

theorem length_objectText_wide (n : Nat) :
    (objectText [(List.replicate n 97, [])]).length = n + 7 := by
  show (lbrace :: (pairText 0 (List.replicate n 97, []) ++ [] ++ [rbrace])).length = _
  have hvalue : jsonEscapedLen [] = 0 := by decide
  have hname : jsonEscapedLen (List.replicate n 97) = n := by
    rw [jsonEscapedLen_eq, escaped_replicate, List.length_replicate]
  rw [List.append_nil, List.length_cons, List.length_append, length_pairText, hname, hvalue]
  show 0 + 5 + n + 0 + 1 + 1 = _
  omega

/-- A query section of `2 ^ 32 + 2` bytes is announced as two. -/
theorem wide_query {n : Nat} (hn : n + 7 = 2 ^ 32 + 2) {out : Bytes}
    (hout : outDataStart + (n + 7) ≤ out.length) :
    ∃ r, (handleComponents sampleCrates wideInner .get (wideUrl n) [] [] [] [] out 0).1 = .ok r ∧
      (Sections.read r.2).query = [lbrace, quote] := by
  have hquery : queryStage wideInner (wideUrl n) = .ok (List.replicate n 97) := by
    show (if 4294967295 < (extractQuery (wideUrl n)).length then _ else _) = _
    rw [extractQuery_wideUrl, List.length_replicate, if_neg (by omega)]
  obtain ⟨p, hp⟩ : ∃ p : Pass,
      (runStages sampleCrates wideInner .get (wideUrl n) [] .empty [] 0).1 = .ok p := by
    obtain ⟨v, hv⟩ : ∃ v, (admission sampleCrates wideInner .get (wideUrl n) [] .empty [] 0).1 = .ok v :=
      ⟨_, rfl⟩
    exact ⟨_, bind_eq_ok_iff.mpr ⟨v, hv, bind_eq_ok_iff.mpr ⟨_, hquery, rfl⟩⟩⟩
  have hraw : p.rawQuery = List.replicate n 97 := by
    rw [(runStages_ok hp).2.1, ← extractQuery_wideUrl n]
    rfl
  have hsection : querySection wideInner p.rawQuery out outDataStart =
      (UInt32.ofNat (n + 7), placed out outDataStart (objectText [(List.replicate n 97, [])]),
        false) := by
    have htext : queryText wideInner p.rawQuery = objectText [(List.replicate n 97, [])] := by
      rw [hraw, queryText_wideUrl (by omega)]
    have hwritten : ¬ (objectText [(List.replicate n 97, [])] = [] ∨ outDataStart = out.length) :=
      not_or.mpr ⟨List.cons_ne_nil _ _, by omega⟩
    rw [querySection_eq wideInner p.rawQuery (by omega), htext, length_objectText_wide,
      if_neg hwritten, if_pos hout]
  refine ⟨_, handleComponents_eq_finish _ _ _ _ _ _ _ _ _ (by omega), ?_⟩
  rw [show outcome sampleCrates wideInner .get (wideUrl n) [] [] [] 0 = .ok p from hp]
  -- the header announces the length cut to 32 bits
  obtain ⟨f, hresult, hfc, hfq⟩ : ∃ f : HeaderFields,
      (writePass wideInner (wideUrl n) [] p out).2 = f.bytes ++
        (querySection wideInner p.rawQuery out outDataStart).2.1.drop outDataStart ∧
      f.cookiesJsonLen = 0 ∧
      f.queryJsonLen = (querySection wideInner p.rawQuery out outDataStart).1 :=
    ⟨_, rfl, rfl, rfl⟩
  show (Sections.read (writePass wideInner (wideUrl n) [] p out).2).query = _
  have htwo : (UInt32.ofNat (n + 7)).toNat = 2 := by
    rw [UInt32.toNat_ofNat', hn]
    decide
  have hdrop := drop_placed (show outDataStart ≤ out.length by omega)
    (objectText [(List.replicate n 97, [])]) 0
  rw [Nat.add_zero, List.drop_zero] at hdrop
  rw [hresult, Sections.read_append, hfc, hfq, hsection, htwo, hdrop]
  rfl

theorem not_isText_open (v : Json) : ¬ IsText v [lbrace, quote] := by
  rw [isText_iff]
  intro h
  cases v with
  | null =>
    injection (show [lbrace, quote] = nullTok from h) with h
    exact absurd h (by decide)
  | bool b =>
    have h : [lbrace, quote] = if b then trueTok else falseTok := h
    cases b <;> exact absurd h (by decide)
  | num tok =>
    obtain ⟨rfl, hnum⟩ := h
    obtain ⟨b, r, htok, hb⟩ := hnum.head
    injection htok with htok
    subst htok
    exact absurd hb (by decide)
  | str raw =>
    obtain ⟨hs, -⟩ := h
    injection hs with hs
    exact absurd hs (by decide)
  | arr items =>
    obtain ⟨body, hs, -⟩ := h
    injection hs with hs
    exact absurd hs (by decide)
  | obj members =>
    obtain ⟨body, hs, -⟩ := h
    injection hs with _ hs
    -- the last byte would be the closing brace
    have hlast := congrArg List.getLast? hs
    rw [List.getLast?_concat] at hlast
    exact absurd hlast (by decide)

/-- With the largest limits and a buffer of more than 4 GiB, the query section of a result is the
first two bytes of its text. -/
theorem handle_section_cut :
    ∃ r, (handleComponents sampleCrates wideInner .get (wideUrl 4294967291) [] [] [] []
        (List.replicate 4294967346 0) 0).1 = .ok r ∧
      ¬ LaidOut 4294967346 r := by
  have key : ∀ n cap : Nat, n = 4294967291 → cap = 4294967346 →
      ∃ r, (handleComponents sampleCrates wideInner .get (wideUrl n) [] [] [] []
        (List.replicate cap 0) 0).1 = .ok r ∧ ¬ LaidOut cap r := by
    intro n cap hn hcap
    obtain ⟨r, hr, hquery⟩ := wide_query (n := n) (by omega)
      (show outDataStart + (n + 7) ≤ (List.replicate cap (0 : UInt8)).length by
        rw [List.length_replicate]
        show 48 + (n + 7) ≤ cap
        omega)
    refine ⟨r, hr, fun h => ?_⟩
    obtain ⟨v, hv, -⟩ := h.json _ (List.mem_cons_of_mem _ List.mem_cons_self) (by
      rw [hquery]
      exact List.cons_ne_nil _ _)
    rw [hquery] at hv
    exact not_isText_open v hv
  exact key _ _ rfl rfl

end

end Castrum
