import Castrum.Ingress.Stages

/-!
# Castrum — two validators for one schema (`rust/ingress/pipeline.rs`)

A schema is compiled to the fast plan where that is possible, and else it is left to the validator over
the parsed document. The body stage has a branch for each.

* `bodyStage_fast_eq` — where the branches part: a body that is JSON and fails the schema;
* `runStages_validators_iff` — the requests that end alike.
-/

namespace Castrum

/-- The instance with a schema. -/
def IngressInner.withSchema (inner : IngressInner) (schema : IngressSchema) : IngressInner :=
  { inner with schema := some schema }

/-- A schema that was compiled to the fast plan. -/
def IngressSchema.compiled (dom fast : Bytes → Bool) : IngressSchema := ⟨dom, some fast⟩

/-- A schema that fell back to the parsed document. -/
def IngressSchema.fallback (dom : Bytes → Bool) : IngressSchema := ⟨dom, none⟩

section

variable (crates : Crates) (inner : IngressInner)

/-- **A body that is JSON and fails the schema**, where its size is allowed. -/
def FailsSchema (dom : Bytes → Bool) (body : Bytes) : Prop :=
  (inner.guardEnabled && inner.maxBodyBytes.toNat < body.length) = false ∧ body ≠ [] ∧
    crates.jsonValidBytes body = true ∧ dom body = false

/-- **The request gets to its body**: CORS lets it through, and so does the limiter. -/
def ReachesBody (mk : MethodKind) (url ip : Bytes) (headers : HeaderRefs) (now : UInt64) : Prop :=
  ∃ flags rate, corsStage inner mk headers (trustStage inner url ip headers).2 = .ok flags ∧
    (rateStage crates inner (trustStage inner url ip headers).1 now flags
      (flags &&& flagCorsAllowed ≠ 0)).1 = .ok rate

variable {crates inner} {dom fast : Bytes → Bool} {mk : MethodKind} {body : Bytes}

/-- With a schema, every body that is there has to be JSON. -/
theorem enforceJson_withSchema (schema : IngressSchema) (hbody : body ≠ []) :
    enforceJson (inner.withSchema schema) mk body = true := by
  show (mk.mayHaveBody || decide (body ≠ [])) = true
  rw [decide_eq_true hbody, Bool.or_true]

/-- Such a body is refused with the flags it came with, and the flag of the JSON check is added only
on the fast path. -/
theorem bodyStage_failsSchema (hfails : FailsSchema crates inner dom body)
    (hagree : fast body = dom body) (flags : UInt32) (hv : UInt8) (rate : RateInfo) :
    bodyStage crates (inner.withSchema (.fallback dom)) mk body flags hv rate =
      .error (terminalSchemaValidation flags hv rate) ∧
    bodyStage crates (inner.withSchema (.compiled dom fast)) mk body flags hv rate =
      .error (terminalSchemaValidation (flags ||| flagBodyValidJson) hv rate) := by
  obtain ⟨hsize, hbody, hjson, hdom⟩ := hfails
  have hsmall : ∀ schema, ((inner.withSchema schema).guardEnabled &&
      decide ((inner.withSchema schema).maxBodyBytes.toNat < body.length)) = false := fun _ => hsize
  constructor
  · have hvalidate : (IngressSchema.fallback dom).validate body = false := hdom
    unfold bodyStage
    rw [hsmall, if_neg Bool.false_ne_true, enforceJson_withSchema _ hbody, if_pos rfl, if_neg hbody]
    show (if (IngressSchema.fallback dom).validate body then _ else _) = _
    rw [hvalidate, if_neg Bool.false_ne_true, hjson]
    rfl
  · have hvalidate : (IngressSchema.compiled dom fast).validate body = false := hagree.trans hdom
    unfold bodyStage
    rw [hsmall, if_neg Bool.false_ne_true, enforceJson_withSchema _ hbody, if_pos rfl, if_neg hbody]
    show (if (IngressSchema.compiled dom fast).validate body then _ else _) = _
    rw [hvalidate, if_neg Bool.false_ne_true, hjson]
    rfl

/-- Every other body gets one answer from both branches. -/
theorem bodyStage_fast_eq (hfails : ¬ FailsSchema crates inner dom body)
    (hagree : fast body = dom body) (flags : UInt32) (hv : UInt8) (rate : RateInfo) :
    bodyStage crates (inner.withSchema (.compiled dom fast)) mk body flags hv rate =
      bodyStage crates (inner.withSchema (.fallback dom)) mk body flags hv rate := by
  have hform : ∀ schema : IngressSchema, schema.validate body = dom body →
      bodyStage crates (inner.withSchema schema) mk body flags hv rate =
        if inner.guardEnabled && inner.maxBodyBytes.toNat < body.length then
          .error (terminalBodyTooLarge flags hv rate)
        else if mk.mayHaveBody || body ≠ [] then
          if body = [] then .error (terminalInvalidJson flags hv rate)
          else if dom body then .ok (flags ||| flagBodyValidJson ||| flagSchemaValid)
          else .error (terminalInvalidJson flags hv rate)
        else .ok flags := by
    intro schema hvalidate
    unfold bodyStage
    show (if inner.guardEnabled && decide (inner.maxBodyBytes.toNat < body.length) then _
      else if mk.mayHaveBody || decide (body ≠ []) then
        if body = [] then _ else if schema.validate body then _ else _ else _) = _
    by_cases hsize : (inner.guardEnabled && decide (inner.maxBodyBytes.toNat < body.length)) = true
    · rw [if_pos hsize, if_pos hsize]
    rw [if_neg hsize, if_neg hsize]
    by_cases henforce : (mk.mayHaveBody || decide (body ≠ [])) = true
    · rw [if_pos henforce, if_pos henforce]
      by_cases hbody : body = []
      · rw [if_pos hbody, if_pos hbody]
      rw [if_neg hbody, if_neg hbody, hvalidate]
      cases hdom : dom body with
      | true => rfl
      | false =>
        -- what fails the schema here is not JSON
        have hjson : crates.jsonValidBytes body = false := by
          cases hjson : crates.jsonValidBytes body with
          | true => exact absurd ⟨Bool.eq_false_iff.mpr hsize, hbody, hjson, hdom⟩ hfails
          | false => rfl
        rw [hjson]
        rfl
    · rw [if_neg henforce, if_neg henforce]
  rw [hform (.compiled dom fast) hagree, hform (.fallback dom) rfl]

/-- The flags a request brings to its body do not say that it is JSON. -/
theorem ne_or_flagBodyValidJson {flags : UInt32} (h : Clears flags flagBodyValidJson) :
    flags ||| flagBodyValidJson ≠ flags := by
  intro heq
  have hset : (flags ||| flagBodyValidJson) &&& flagBodyValidJson = flagBodyValidJson := by
    rw [or_and_flag, show flags &&& flagBodyValidJson = 0 from h]
    rfl
  rw [heq, show flags &&& flagBodyValidJson = 0 from h] at hset
  exact absurd hset (by decide)

/-- **Which validator ran**: the limiter never tells, and the terminal tells exactly for the requests
that get to a body that is JSON and fails the schema. -/
theorem runStages_validators_iff (hagree : fast body = dom body) (url ip : Bytes)
    (headers : HeaderRefs) (now : UInt64) :
    (runStages crates (inner.withSchema (.compiled dom fast)) mk url ip headers body now =
      runStages crates (inner.withSchema (.fallback dom)) mk url ip headers body now) ↔
    ¬ (ReachesBody crates inner mk url ip headers now ∧ FailsSchema crates inner dom body) := by
  -- the stages in front of the body do not look at the schema
  have hcorsStage : ∀ schema, corsStage (inner.withSchema schema) mk headers
      (trustStage (inner.withSchema schema) url ip headers).2 =
        corsStage inner mk headers (trustStage inner url ip headers).2 := fun _ => rfl
  have hrateStage : ∀ schema flags corsOk, rateStage crates (inner.withSchema schema)
      (trustStage (inner.withSchema schema) url ip headers).1 now flags corsOk =
        rateStage crates inner (trustStage inner url ip headers).1 now flags corsOk :=
    fun _ _ _ => rfl
  have hactive : ∀ schema, (inner.withSchema schema).rate = inner.rate := fun _ => rfl
  constructor
  · rintro hsame ⟨⟨flags, rate, hcors, hrate⟩, hfails⟩
    have hclears : Clears flags flagBodyValidJson :=
      corsStage_clears rfl (trustStage_clears rfl rfl) hcors
    have hrun : ∀ schema t, bodyStage crates (inner.withSchema schema) mk body flags
          (computeHeaderVariant (flags &&& flagCorsAllowed ≠ 0) false inner.rate.isActive false true)
          rate = .error t →
        (runStages crates (inner.withSchema schema) mk url ip headers body now).1 = .error t := by
      intro schema t hbody
      unfold runStages admission
      dsimp only
      rw [hcorsStage, hcors]
      dsimp only
      rw [hrateStage, hrate, ok_bind, hactive, hbody]
      rfl
    have hterminals := congrArg Prod.fst hsame
    obtain ⟨hdom, hfast⟩ := @bodyStage_failsSchema crates inner dom fast mk body hfails hagree flags
      (computeHeaderVariant (flags &&& flagCorsAllowed ≠ 0) false inner.rate.isActive false true) rate
    rw [hrun _ _ hfast, hrun _ _ hdom] at hterminals
    injection hterminals with hterminals
    exact ne_or_flagBodyValidJson hclears (congrArg Terminal.flags hterminals)
  · intro hnot
    have hsame : admission crates (inner.withSchema (.compiled dom fast)) mk url ip headers body now =
        admission crates (inner.withSchema (.fallback dom)) mk url ip headers body now := by
      unfold admission
      dsimp only
      rw [hcorsStage, hcorsStage]
      cases hcors : corsStage inner mk headers (trustStage inner url ip headers).2 with
      | error t => rfl
      | ok flags =>
        dsimp only
        rw [hrateStage, hrateStage, hactive, hactive]
        cases hrate : (rateStage crates inner (trustStage inner url ip headers).1 now flags
            (flags &&& flagCorsAllowed ≠ 0)).1 with
        | error t => rfl
        | ok rate =>
          have hother : ¬ FailsSchema crates inner dom body :=
            fun hfails => hnot ⟨⟨flags, rate, hcors, hrate⟩, hfails⟩
          rw [ok_bind, ok_bind, bodyStage_fast_eq hother hagree]
    unfold runStages
    rw [hsame]
    rfl

end

/-- A check under which `[]` is JSON, and nothing else. -/
def bracketCrates : Crates := { xxh3 := fun _ _ => 0, jsonValidBytes := fun b => b == utf8 "[]" }

/-- A validator that nothing satisfies. -/
def unsatisfied : Bytes → Bool := fun _ => false

/-- What becomes of a `POST` under a schema. -/
def postUnder (schema : IngressSchema) (body : Bytes) : Except Terminal Pass × RateLimiterState :=
  runStages bracketCrates (IngressInner.withSchema {} schema) .post (utf8 "/") (utf8 "1.2.3.4") .empty
    body 0

/-- With the body `[`, which is no JSON, it ends alike. -/
theorem runStages_validators_iff_malformed :
    postUnder (.compiled unsatisfied unsatisfied) (utf8 "[") =
      postUnder (.fallback unsatisfied) (utf8 "[") := by
  have hagree : unsatisfied (utf8 "[") = unsatisfied (utf8 "[") := rfl
  apply (runStages_validators_iff hagree _ _ _ _).mpr
  rintro ⟨-, hfails⟩
  exact absurd hfails (by unfold FailsSchema; decide)

/-- With the body `[]` it is refused with 422 by both, and only the fast path says that this is
JSON. -/
theorem runStages_validators_differ :
    let hv := computeHeaderVariant false false false false true
    (postUnder (.compiled unsatisfied unsatisfied) (utf8 "[]")).1 =
      .error (terminalSchemaValidation flagBodyValidJson hv {}) ∧
    (postUnder (.fallback unsatisfied) (utf8 "[]")).1 = .error (terminalSchemaValidation 0 hv {}) ∧
    terminalSchemaValidation flagBodyValidJson hv {} ≠ terminalSchemaValidation 0 hv {} := by
  refine ⟨?_, ?_, ?_⟩ <;> decide

end Castrum
