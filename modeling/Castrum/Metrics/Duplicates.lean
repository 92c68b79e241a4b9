import Castrum.Metrics.Labels

/-!
# Castrum — two lines for one sample (`render_into` of `rust/metrics/registry.rs`)

A sample is identified by its name and the set of its labels. `declare` compares names with the names of
families only. It knows nothing of the names that a histogram derives from its own, and takes any
identifier as a label key, also one that comes twice and the `le` of a histogram's buckets.

* `renderInto_lines` — the text is that of the lines, family by family;
* `Floats.Reads` — what is known of the texts of numbers;
* `CleanDeclare` — the declarations that derive no sample of another family;
* `noDuplicates_of_run` — if a run has only such declarations, every sample has one line.
-/

namespace Castrum.Metrics

/-! ## Lines -/

structure Line where
  name : Bytes
  labels : List (Bytes × Bytes)
  value : Bytes

/-- The text of a line; without labels there are no braces. -/
def Line.text (l : Line) : Bytes :=
  lineText l.name (if l.labels = [] then [] else [123] ++ pairsText false l.labels ++ [125]) l.value

/-- The same set of labels, or of label names. -/
def SameSet {α : Type} (a b : List α) : Prop := (∀ x ∈ a, x ∈ b) ∧ ∀ x ∈ b, x ∈ a

instance {α : Type} [DecidableEq α] (a b : List α) : Decidable (SameSet a b) :=
  inferInstanceAs (Decidable (_ ∧ _))

/-- Two lines for one sample. -/
def Line.Same (a b : Line) : Prop := a.name = b.name ∧ SameSet a.labels b.labels

instance (a b : Line) : Decidable (a.Same b) := inferInstanceAs (Decidable (_ ∧ _))

/-- No two lines are for one sample, and no line has a label name twice. -/
def NoDuplicates (lines : List Line) : Prop :=
  (lines.Pairwise fun a b => ¬ a.Same b) ∧ ∀ l ∈ lines, (l.labels.map Prod.fst).Nodup

instance (lines : List Line) : Decidable (NoDuplicates lines) := inferInstanceAs (Decidable (_ ∧ _))

section

variable {F : Type}

/-- The lines of a row. -/
def rowLines (f64 : Floats F) (fam : Family F) (row : Row F) : List Line :=
  (rowSamples f64 fam row.value).map fun s =>
    ⟨s.name, fam.labelKeys.zip (pieces metricsValueSep row.labels) ++ s.extra.toList, s.value⟩

/-- The lines of a family. -/
def familyLines (f64 : Floats F) (r : Registry F) (fam : Family F) (idx : Nat) : List Line :=
  (r.rows.filter (·.family = idx)).flatMap (rowLines f64 fam)

/-- All lines of samples. -/
def lines (f64 : Floats F) (r : Registry F) : List Line :=
  r.families.zipIdx.flatMap fun e => familyLines f64 r e.1 e.2

end

section

variable {F : Type} [LinearOrder F] [Zero F]

/-! ## What a row shows -/

omit [LinearOrder F] [Zero F] in
/-- Valid values are a list of them, packed. -/
theorem accepted_of_valid {fam : Family F} {labels : Bytes}
    (h : validateValues labels fam.labelKeys.length = .ok ()) :
    ∃ vs, labels = pack vs ∧ Accepted fam vs := by
  obtain ⟨h0, ⟨hkeys, rfl⟩ | ⟨-, hcount⟩⟩ := validateValues_eq_ok_iff.mp h
  · exact ⟨[], rfl, hkeys.symm, nofun, h⟩
  · have hpack : pack (labels.splitOn metricsValueSep) = labels := List.intercalate_splitOn _
    refine ⟨labels.splitOn metricsValueSep, hpack.symm, ?_, fun v hv => ⟨?_, ?_⟩, ?_⟩
    · rw [length_splitOn, hcount]
    · exact fun hmem => h0 (mem_of_mem_splitOn hv hmem)
    · exact not_mem_of_mem_splitOn hv
    · rw [hpack]
      exact h

variable {f64 : Floats F} {r r' : Registry F} {fam fam' : Family F} {vs vs' : List Bytes}
  {row row' : Row F} {s s' : Sample}

/-- The labels of a line. -/
def labelsOf (fam : Family F) (vs : List Bytes) (s : Sample) : List (Bytes × Bytes) :=
  fam.labelKeys.zip (shown vs) ++ s.extra.toList

omit [LinearOrder F] [Zero F] in
theorem rowLines_eq (hlabels : row.labels = pack vs) (h : Accepted fam vs) :
    rowLines f64 fam row =
      (rowSamples f64 fam row.value).map fun s => ⟨s.name, labelsOf fam vs s, s.value⟩ := by
  rw [rowLines, hlabels, pieces_pack fun v hv => (h.clean v hv).2]
  rfl

omit [LinearOrder F] [Zero F] in
/-- The text of a line is that of its labels. -/
theorem text_labelsOf (h : Accepted fam vs) (s : Sample) :
    s.text fam.labelKeys (pack vs) = Line.text ⟨s.name, labelsOf fam vs s, s.value⟩ := by
  have hpairs : valuePairs fam.labelKeys 0 (pack vs) ++ s.extra.toList = labelsOf fam vs s := by
    rw [valuePairs_pack h.length fun v hv => (h.clean v hv).2]
    rfl
  have hempty : labelsOf fam vs s = [] ↔ (fam.labelKeys.isEmpty && s.extra.isNone) = true := by
    rw [labelsOf, List.append_eq_nil_iff, Option.toList_eq_nil_iff, Bool.and_eq_true,
      List.isEmpty_iff, Option.isNone_iff_eq_none, List.zip_eq_nil_iff]
    refine and_congr_left fun _ => ⟨fun hnil => ?_, .inl⟩
    by_contra hkeys
    exact hnil.elim hkeys (h.shown_ne_nil hkeys)
  rw [Sample.text, Line.text, writeLabels, hpairs]
  by_cases hnil : labelsOf fam vs s = []
  · rw [if_pos (hempty.mp hnil), if_pos hnil]
  · rw [if_neg (mt hempty.mpr hnil), if_neg hnil]

/-- The rows of a family are series of it. -/
theorem WellFormed.row_of_family (hr : WellFormed r) (hrow : row ∈ r.rows)
    (hget : r.families[row.family]? = some fam) :
    ∃ vs, row.labels = pack vs ∧ Accepted fam vs ∧ row.value.Matches fam := by
  obtain ⟨id, fam', hid, hget', -, hvalid, hvalue⟩ := hr.row hrow
  rw [hid] at hget
  cases hget.symm.trans hget'
  obtain ⟨vs, hlabels, h⟩ := accepted_of_valid hvalid
  exact ⟨vs, hlabels, h, hvalue⟩

/-- **The text is that of the lines**, family by family. -/
theorem renderInto_lines (hr : WellFormed r) (out : Bytes) :
    r.renderInto f64 out = out ++ r.families.zipIdx.flatMap fun e =>
      typeLine e.1 ++ (familyLines f64 r e.1 e.2).flatMap Line.text := by
  rw [renderInto_eq]
  congr 1
  apply List.flatMap_congr
  intro e he
  rw [familyLines, List.flatMap_assoc]
  congr 1
  apply List.flatMap_congr
  intro row hrow
  obtain ⟨hmem, hfamily⟩ := List.mem_filter.mp hrow
  have hget : r.families[row.family]? = some e.1 := by
    rw [of_decide_eq_true hfamily]
    exact List.mem_zipIdx_iff_getElem?.mp he
  obtain ⟨vs, hlabels, h, -⟩ := hr.row_of_family hmem hget
  rw [rowLines_eq hlabels h, renderRow_eq, hlabels, List.flatMap_map]
  apply List.flatMap_congr
  intro s _
  exact text_labelsOf h s

/-! ## Names and numbers -/

/-- What is known of the texts of finite numbers: they read back as the number. And `+Inf` is read as
infinity. -/
structure Floats.Reads (f64 : Floats F) (parse : Bytes → Option (Double F)) : Prop where
  display : ∀ x, parse (f64.display (.finite x)) = some (.finite x)
  integer : ∀ x n, f64.integer x = some n → parse (i64Text n) = some (.finite x)
  inf : parse infBound = some .posInf

omit [LinearOrder F] [Zero F] in
theorem Floats.Reads.writeF64 {parse : Bytes → Option (Double F)} (h : f64.Reads parse) (x : F) :
    parse (writeF64 f64 (.finite x)) = some (.finite x) := by
  unfold Metrics.writeF64
  dsimp only
  split
  · next n hn => exact h.integer x n hn
  · exact h.display x

theorem suffix_injective {n n' suffix suffix' : Bytes}
    (hs : suffix ∈ [bucketSuffix, sumSuffix, countSuffix])
    (hs' : suffix' ∈ [bucketSuffix, sumSuffix, countSuffix]) (h : n ++ suffix = n' ++ suffix') :
    suffix = suffix' ∧ n = n' := by
  -- their last two bytes tell the suffixes apart
  have hlast : ∀ n : Bytes, ∀ suffix ∈ [bucketSuffix, sumSuffix, countSuffix],
      (n ++ suffix).reverse.take 2 = suffix.reverse.take 2 := by
    intro n suffix hmem
    have hle : 2 ≤ suffix.reverse.length := by
      simp only [List.mem_cons, List.not_mem_nil, or_false] at hmem
      rcases hmem with rfl | rfl | rfl <;> decide
    rw [List.reverse_append, List.take_append_of_le_length hle]
  have htwo := hlast n' suffix' hs'
  rw [← h, hlast n suffix hs] at htwo
  have hsame : suffix = suffix' := by
    simp only [List.mem_cons, List.not_mem_nil, or_false] at hs hs'
    rcases hs with rfl | rfl | rfl <;> rcases hs' with rfl | rfl | rfl <;>
      first | rfl | exact absurd htwo (by decide)
  subst hsame
  exact ⟨rfl, List.append_cancel_right h⟩

/-! ## Declarations that keep samples apart -/

/-- The keys that a line can show: the last one is left out with an empty value, if there is another. -/
def shownKeys (keys : List Bytes) : List (List Bytes) :=
  if 2 ≤ keys.length then [keys, keys.dropLast] else [keys]

/-- A name that the histogram derives is the name of the other family, and the lines can show the same
labels. -/
def Clash (hist scalar : Family F) : Prop :=
  hist.kind = .histogram ∧ scalar.kind ≠ .histogram ∧
    ∃ keys ∈ shownKeys hist.labelKeys, ∃ keys' ∈ shownKeys scalar.labelKeys,
      (scalar.name = hist.name ++ bucketSuffix ∧ SameSet (keys ++ [leKey]) keys') ∨
      ((scalar.name = hist.name ++ sumSuffix ∨ scalar.name = hist.name ++ countSuffix) ∧
        SameSet keys keys')

/-- No label name comes twice, and a histogram has no label `le` of its own. -/
structure Family.Clean (fam : Family F) : Prop where
  nodup : fam.labelKeys.Nodup
  le : fam.kind = .histogram → leKey ∉ fam.labelKeys

/-- A declaration that keeps the samples of families apart. -/
structure CleanDeclare (r : Registry F) (fam : Family F) : Prop where
  family : fam.Clean
  apart : ∀ other ∈ r.families, ¬ Clash fam other ∧ ¬ Clash other fam

/-- A call that is an update or such a declaration. -/
def CleanCall (r : Registry F) : Call F → Prop
  | .declare kind name labelKeys buckets => CleanDeclare r ⟨name, kind, labelKeys, buckets⟩
  | .update _ => True

/-- One call that returns `Ok`. -/
def okStep (f64 : Floats F) (r : Registry F) (c : Call F) : Option (Registry F) :=
  match r.call f64 c with
  | some (.ok (), r') => some r'
  | _ => none

structure Clean (r : Registry F) : Prop where
  wellFormed : WellFormed r
  families : ∀ fam ∈ r.families, fam.Clean
  apart : ∀ fam ∈ r.families, ∀ other ∈ r.families, ¬ Clash fam other

theorem update_families {u : Update F} {res : Except MetricsError Unit}
    (h : r.update f64 u = some (res, r')) : r'.families = r.families := by
  have hentry : ∀ key value, (r.entry key value).2.families = r.families := by
    intro key value
    unfold Registry.entry
    cases r.shards.get key <;> rfl
  cases u with
  | add series values amount =>
    rcases add_cases h with ⟨_, -, -, rfl⟩ | ⟨fam, -, ⟨value, -, -, rfl⟩ | ⟨_, -, -, rfl⟩⟩
    · rfl
    · rfl
    · exact hentry _ _
  | set series values v =>
    rcases set_cases (Option.some.inj h) with ⟨_, -, -, rfl⟩ | ⟨fam, -, -, rfl | ⟨-, rfl⟩⟩
    · rfl
    · rfl
    · rfl

/-- A new family that clashes with no other. -/
theorem Clean.append (hr : Clean r) (hwf : WellFormed r') (hfamilies : r'.families = r.families ++ [fam])
    (hfam : fam.Clean) (hapart : ∀ other ∈ r.families, ¬ Clash fam other ∧ ¬ Clash other fam) :
    Clean r' := by
  refine ⟨hwf, ?_, ?_⟩
  · rw [hfamilies]
    intro fam' hfam'
    rcases List.mem_append.mp hfam' with hfam' | hfam'
    · exact hr.families fam' hfam'
    · rw [List.mem_singleton.mp hfam']
      exact hfam
  · rw [hfamilies]
    intro fam' hfam' other hother
    rcases List.mem_append.mp hfam' with hfam' | hfam' <;>
      rcases List.mem_append.mp hother with hother | hother
    · exact hr.apart fam' hfam' other hother
    · rw [List.mem_singleton.mp hother]
      exact (hapart fam' hfam').2
    · rw [List.mem_singleton.mp hfam']
      exact (hapart other hother).1
    · -- a family is of one kind
      rw [List.mem_singleton.mp hfam', List.mem_singleton.mp hother]
      exact fun h => h.2.1 h.1

/-- **One call** that meets the condition keeps samples apart. -/
theorem Clean.step (hr : Clean r) {c : Call F} (hc : CleanCall r c) (h : okStep f64 r c = some r') :
    Clean r' := by
  have hcall : r.call f64 c = some (.ok (), r') := by
    unfold okStep at h
    split at h
    · next hcall => exact hcall.trans (by rw [Option.some.inj h])
    · cases h
  have hwf := hr.wellFormed.call hcall
  cases c with
  | declare kind name labelKeys buckets =>
    have hr' : (r.declare f64 kind name labelKeys buckets).2 = r' :=
      congrArg Prod.snd (Option.some.inj hcall)
    rcases declare_cases f64 r kind name labelKeys buckets with hsame | ⟨sorted, -, -, -, hadded⟩
    · rw [← hr', hsame]
      exact hr
    · have hfamilies : r'.families = r.families ++ [⟨name, kind, labelKeys, sorted⟩] := by
        rw [← hr', hadded]
      -- the bounds play no part in the condition
      exact hr.append hwf hfamilies ⟨hc.family.nodup, hc.family.le⟩ hc.apart
  | update u =>
    have hfamilies := update_families hcall
    exact ⟨hwf, hfamilies ▸ hr.families, hfamilies ▸ hr.apart⟩

theorem clean_of_run (h : Run (okStep f64) CleanCall Registry.new r) : Clean r :=
  h.invariant ⟨wellFormed_new, (fun _ h => nomatch h), (fun _ h => nomatch h)⟩
    fun _ _ _ hr hc hstep => hr.step hc hstep

/-! ## The labels of two lines -/

/-- Lists of values that give the same pairs for the same keys are the same. -/
theorem zip_injective {keys us us' : List Bytes} (hnodup : keys.Nodup) (hle : us.length ≤ keys.length)
    (hle' : us'.length ≤ keys.length) (h : SameSet (keys.zip us) (keys.zip us')) : us = us' := by
  induction keys generalizing us us' with
  | nil => rw [List.length_eq_zero_iff.mp (Nat.le_zero.mp hle), List.length_eq_zero_iff.mp (Nat.le_zero.mp hle')]
  | cons k keys ih =>
    cases us with
    | nil =>
      cases us' with
      | nil => rfl
      | cons u' us' => exact absurd (h.2 _ List.mem_cons_self) List.not_mem_nil
    | cons u us =>
      cases us' with
      | nil => exact absurd (h.1 _ List.mem_cons_self) List.not_mem_nil
      | cons u' us' =>
        obtain ⟨hk, hnodup⟩ := List.nodup_cons.mp hnodup
        have hnot : ∀ {v : Bytes} {vs : List Bytes}, (k, v) ∉ keys.zip vs :=
          fun hmem => hk (List.of_mem_zip hmem).1
        rw [List.zip_cons_cons, List.zip_cons_cons] at h
        have hu : u = u' :=
          (List.mem_cons.mp (h.1 _ List.mem_cons_self)).elim (congrArg Prod.snd) (absurd · hnot)
        -- the other pairs have other keys
        have htail : ∀ {vs vs' : List Bytes} {v v' : Bytes},
            (∀ p ∈ (k, v) :: keys.zip vs, p ∈ (k, v') :: keys.zip vs') →
            ∀ p ∈ keys.zip vs, p ∈ keys.zip vs' := by
          rintro vs vs' v v' hsub ⟨k', w⟩ hp
          refine (List.mem_cons.mp (hsub _ (List.mem_cons_of_mem _ hp))).resolve_left fun heq => ?_
          rw [(Prod.mk.inj heq).1] at hp
          exact hnot hp
        rw [hu, ih hnodup (Nat.le_of_succ_le_succ hle) (Nat.le_of_succ_le_succ hle')
          ⟨htail h.1, htail h.2⟩]

omit [LinearOrder F] [Zero F] in
/-- Lines of one family with the same labels are lines of the same values. -/
theorem values_of_sameSet (hfam : fam.Clean) (h : Accepted fam vs) (h' : Accepted fam vs')
    (hextra : ∀ p ∈ s.extra.toList, p.1 ∉ fam.labelKeys)
    (hextra' : ∀ p ∈ s'.extra.toList, p.1 ∉ fam.labelKeys)
    (hsame : SameSet (labelsOf fam vs s) (labelsOf fam vs' s')) : vs = vs' := by
  have hzip : ∀ {us us' : List Bytes} {s s' : Sample}, (∀ p ∈ s'.extra.toList, p.1 ∉ fam.labelKeys) →
      (∀ p ∈ labelsOf fam us s, p ∈ labelsOf fam us' s') →
      ∀ p ∈ fam.labelKeys.zip (shown us), p ∈ fam.labelKeys.zip (shown us') := by
    rintro us us' s s' hextra hsub ⟨k, v⟩ hp
    refine (List.mem_append.mp (hsub _ (List.mem_append_left _ hp))).resolve_right fun hmem => ?_
    exact hextra _ hmem (List.of_mem_zip hp).1
  have hle : ∀ {us : List Bytes}, us.length = fam.labelKeys.length →
      (shown us).length ≤ fam.labelKeys.length := fun hus => (length_shown_le _).trans hus.le
  exact shown_injective (h.length.trans h'.length.symm) (zip_injective hfam.nodup (hle h.length)
    (hle h'.length) ⟨hzip hextra' hsame.1, hzip hextra hsame.2⟩)

omit [LinearOrder F] [Zero F] in
/-- The keys that a line shows. -/
theorem shownKeys_of_accepted (h : Accepted fam vs) :
    (fam.labelKeys.zip (shown vs)).map Prod.fst ∈ shownKeys fam.labelKeys := by
  unfold shown
  split
  · next hlast =>
    have hvs : vs.dropLast ++ [[]] = vs := List.dropLast_append_getLast? _ hlast
    have hlength : fam.labelKeys.dropLast.length = vs.dropLast.length := by
      rw [List.length_dropLast, List.length_dropLast, h.length]
    -- the empty value is not the only one
    have htwo : 2 ≤ fam.labelKeys.length := by
      rcases (validateValues_eq_ok_iff.mp h.valid).2 with ⟨hzero, -⟩ | ⟨hne, -⟩
      · rw [← h.length, ← hvs, List.length_append] at hzero
        cases hzero
      · by_contra hlt
        rw [← h.length, ← hvs, List.length_append, List.length_singleton] at hlt
        have hnil : vs.dropLast = [] := List.length_eq_zero_iff.mp (by omega)
        rw [← hvs, hnil] at hne
        exact hne rfl
    have hkeys : fam.labelKeys ≠ [] := by
      intro hnil
      rw [hnil] at htwo
      cases htwo
    have hzip : fam.labelKeys.zip vs.dropLast = fam.labelKeys.dropLast.zip vs.dropLast := by
      conv_lhs => rw [← List.dropLast_append_getLast hkeys, ← List.append_nil vs.dropLast]
      rw [List.zip_append hlength, List.zip_nil_right, List.append_nil]
    rw [hzip, List.map_fst_zip hlength.le, shownKeys, if_pos htwo]
    exact List.mem_cons_of_mem _ List.mem_cons_self
  · rw [List.map_fst_zip h.length.ge, shownKeys]
    split <;> exact List.mem_cons_self

/-! ## The samples of a row -/

omit [LinearOrder F] [Zero F] in
/-- The name of a line, and its label besides those of the series. -/
theorem sample_cases {value : Value F} (hvalue : value.Matches fam)
    (h : s ∈ rowSamples f64 fam value) :
    (fam.kind ≠ .histogram ∧ s.name = fam.name ∧ s.extra = none) ∨
    (fam.kind = .histogram ∧
      ((s.name = fam.name ++ bucketSuffix ∧ ∃ bound, s.extra = some (leKey, bound)) ∨
        ((s.name = fam.name ++ sumSuffix ∨ s.name = fam.name ++ countSuffix) ∧ s.extra = none))) := by
  cases value with
  | scalar v =>
    rw [List.mem_singleton.mp h]
    exact .inl ⟨hvalue, rfl, rfl⟩
  | hist counts sum count =>
    refine .inr ⟨hvalue.1, ?_⟩
    rcases List.mem_append.mp h with h | h
    · obtain ⟨le, -, hname, hextra⟩ := extra_of_mem_bucketSamples h
      exact .inl ⟨hname, _, hextra⟩
    · simp only [List.mem_cons, List.not_mem_nil, or_false] at h
      rcases h with rfl | rfl | rfl
      · exact .inl ⟨rfl, _, rfl⟩
      · exact .inr ⟨.inl rfl, rfl⟩
      · exact .inr ⟨.inr rfl, rfl⟩

omit [LinearOrder F] [Zero F] in
/-- A label besides those of the series has another name. -/
theorem extra_not_mem (hfam : fam.Clean) {value : Value F} (hvalue : value.Matches fam)
    (h : s ∈ rowSamples f64 fam value) : ∀ p ∈ s.extra.toList, p.1 ∉ fam.labelKeys := by
  intro p hp
  rcases sample_cases hvalue h with ⟨-, -, hnone⟩ | ⟨hkind, -⟩
  · rw [hnone] at hp
    cases hp
  · rw [extra_of_mem_rowSamples h hp]
    exact hfam.le hkind

omit [LinearOrder F] [Zero F] in
/-- **No label twice** in a line. -/
theorem nodup_labelsOf (hfam : fam.Clean) (h : Accepted fam vs)
    (hextra : ∀ p ∈ s.extra.toList, p.1 ∉ fam.labelKeys) :
    ((labelsOf fam vs s).map Prod.fst).Nodup := by
  -- an empty last value is not shown, so that the last key may be missing
  have hsub : ((fam.labelKeys.zip (shown vs)).map Prod.fst).Sublist fam.labelKeys := by
    have hmem := shownKeys_of_accepted h
    generalize (fam.labelKeys.zip (shown vs)).map Prod.fst = keys at hmem ⊢
    unfold shownKeys at hmem
    split at hmem
    · simp only [List.mem_cons, List.not_mem_nil, or_false] at hmem
      rcases hmem with rfl | rfl
      · exact List.Sublist.refl _
      · exact List.dropLast_sublist _
    · rw [List.mem_singleton.mp hmem]
  rw [labelsOf, List.map_append, List.nodup_append]
  refine ⟨hfam.nodup.sublist hsub, ?_, ?_⟩
  · cases s.extra with
    | none => exact List.nodup_nil
    | some p => exact List.nodup_singleton _
  · rintro k hk _ hk' rfl
    obtain ⟨p, hp, rfl⟩ := List.mem_map.mp hk'
    exact hextra p hp (hsub.subset hk)

omit [Zero F] in
/-- The bounds of buckets have different texts, and none is `+Inf`. -/
theorem bounds_texts {parse : Bytes → Option (Double F)} (hreads : f64.Reads parse) {bounds : List F}
    (hsorted : bounds.Pairwise (· < ·)) :
    (bounds.map (fun x => writeF64 f64 (.finite x)) ++ [infBound]).Nodup := by
  rw [List.nodup_append]
  refine ⟨?_, List.nodup_singleton _, ?_⟩
  · rw [List.Nodup, List.pairwise_map]
    refine hsorted.imp fun {x y} hlt heq => ?_
    have hread := congrArg parse heq
    rw [hreads.writeF64, hreads.writeF64] at hread
    cases hread
    exact lt_irrefl _ hlt
  · intro text htext inf hinf heq
    obtain ⟨x, -, rfl⟩ := List.mem_map.mp htext
    have hread := congrArg parse (heq.trans (List.mem_singleton.mp hinf))
    rw [hreads.writeF64, hreads.inf] at hread
    cases hread

omit [LinearOrder F] [Zero F] in
theorem map_bucketSamples (f64 : Floats F) (fam : Family F) (counts : List Nat) (i cumulative : Nat)
    (buckets : List (Double F)) :
    (bucketSamples f64 fam counts i cumulative buckets).map (fun s => (s.name, s.extra)) =
      buckets.map fun le => (fam.name ++ bucketSuffix, some (leKey, writeF64 f64 le)) := by
  induction buckets generalizing i cumulative with
  | nil => rfl
  | cons le buckets ih =>
    rw [bucketSamples, List.map_cons, ih]
    rfl

/-- The lines of a row have different names or different bounds. -/
theorem nodup_rowSamples {parse : Bytes → Option (Double F)} (hreads : f64.Reads parse)
    (hfam : fam.Valid) {value : Value F} (hvalue : value.Matches fam) :
    ((rowSamples f64 fam value).map fun s => (s.name, s.extra)).Nodup := by
  cases value with
  | scalar v => exact List.nodup_singleton _
  | hist counts sum count =>
    obtain ⟨bounds, hbuckets, hsorted, -⟩ := hfam.buckets hvalue.1
    have hmap : ((rowSamples f64 fam (.hist counts sum count)).map fun s => (s.name, s.extra)) =
        (bounds.map (fun x => writeF64 f64 (.finite x)) ++ [infBound]).map
            (fun text => (fam.name ++ bucketSuffix, some (leKey, text))) ++
          [(fam.name ++ sumSuffix, none), (fam.name ++ countSuffix, none)] := by
      rw [rowSamples, List.map_append, map_bucketSamples, hbuckets, List.map_append, List.map_map,
        List.map_map]
      simp [Function.comp_def]
    rw [hmap, List.nodup_append]
    -- the bounds tell the buckets apart, and the suffixes the sum from the count
    refine ⟨?_, ?_, ?_⟩
    · refine (bounds_texts hreads hsorted).map fun text text' heq => ?_
      exact (Prod.mk.inj (Option.some.inj (Prod.mk.inj heq).2)).2
    · refine List.nodup_cons.mpr ⟨fun hmem => ?_, List.nodup_singleton _⟩
      have hname := List.append_cancel_left (Prod.mk.inj (List.mem_singleton.mp hmem)).1
      exact absurd hname (by decide)
    · intro a ha b hb heq
      obtain ⟨text, -, rfl⟩ := List.mem_map.mp ha
      subst heq
      simp at hb

omit [LinearOrder F] [Zero F] in
/-- Lines of one row with the same labels have the same bound. -/
theorem extra_of_sameSet (hextra : ∀ p ∈ s.extra.toList, p.1 ∉ fam.labelKeys)
    (hextra' : ∀ p ∈ s'.extra.toList, p.1 ∉ fam.labelKeys)
    (hsame : SameSet (labelsOf fam vs s) (labelsOf fam vs s')) : s.extra = s'.extra := by
  have hsub : ∀ {s s' : Sample}, (∀ p ∈ s.extra.toList, p.1 ∉ fam.labelKeys) →
      (∀ p ∈ labelsOf fam vs s, p ∈ labelsOf fam vs s') → ∀ p, p ∈ s.extra → p ∈ s'.extra := by
    intro s s' hextra hsub p hp
    have hp := Option.mem_toList.mpr hp
    have hmem := List.mem_append.mp (hsub p (List.mem_append_right _ hp))
    exact Option.mem_toList.mp
      (hmem.resolve_left fun hzip => hextra p hp (List.of_mem_zip hzip).1)
  exact Option.ext fun p => ⟨hsub hextra hsame.1 p, hsub hextra' hsame.2 p⟩

/-! ## The samples of a registry -/

/-- **No two rows are for one series.** -/
theorem WellFormed.rows_differ (hr : WellFormed r) :
    r.rows.Pairwise fun a b => ¬ (a.family = b.family ∧ a.labels = b.labels) := by
  have hperm := List.perm_insertionSort Row.Before r.entryRows
  rw [Registry.rows, hperm.pairwise_iff fun hab hba => hab ⟨hba.1.symm, hba.2.symm⟩,
    Registry.entryRows, List.pairwise_flatMap]
  have hkey : ∀ {i i'} {e e' : Sigma fun _ : Bytes => Value F}, e ∈ (r.shards.maps i).entries →
      e' ∈ (r.shards.maps i').entries →
      (Row.ofEntry e.1 e.2).family = (Row.ofEntry e'.1 e'.2).family ∧
        (Row.ofEntry e.1 e.2).labels = (Row.ofEntry e'.1 e'.2).labels → e.1 = e'.1 := by
    rintro i i' ⟨key, value⟩ ⟨key', value'⟩ he he' ⟨hfamily, hlabels⟩
    obtain ⟨id, vals, -, rfl, -⟩ := hr.series _ _ (mem_entries_iff.mp ⟨i, he⟩)
    obtain ⟨id', vals', -, rfl, -⟩ := hr.series _ _ (mem_entries_iff.mp ⟨i', he'⟩)
    simp only [ofEntry_buildKey] at hfamily hlabels
    rw [UInt32.toNat_inj.mp hfamily, hlabels]
  constructor
  · intro i _
    rw [List.pairwise_map]
    refine (List.nodupKeys_iff_pairwise.mp (r.shards.maps i).nodupKeys).imp_of_mem ?_
    exact fun he he' hne hsame => hne (hkey he he' hsame)
  · refine (List.nodup_finRange metricsShards).imp fun {i i'} hne => ?_
    intro row hrow row' hrow' hsame
    obtain ⟨e, he, rfl⟩ := List.mem_map.mp hrow
    obtain ⟨e', he', rfl⟩ := List.mem_map.mp hrow'
    -- a key is in one shard only
    have hplaced := r.shards.placed i e.1 (List.mem_keys_of_mem he)
    have hplaced' := r.shards.placed i' e'.1 (List.mem_keys_of_mem he')
    rw [hkey he he' hsame] at hplaced
    exact hne (hplaced.symm.trans hplaced')

/-- The lines of a family are lines of its rows. -/
theorem WellFormed.mem_familyLines (hr : WellFormed r) {idx : Nat}
    (hget : r.families[idx]? = some fam) {line : Line} (h : line ∈ familyLines f64 r fam idx) :
    ∃ row vs s, Accepted fam vs ∧ Value.Matches fam (row : Row F).value ∧
      s ∈ rowSamples f64 fam row.value ∧ line = ⟨s.name, labelsOf fam vs s, s.value⟩ := by
  obtain ⟨row, hrow, hline⟩ := List.mem_flatMap.mp h
  obtain ⟨hrow, hidx⟩ := List.mem_filter.mp hrow
  obtain ⟨vs, hlabels, haccepted, hvalue⟩ :=
    hr.row_of_family hrow ((of_decide_eq_true hidx).symm ▸ hget)
  rw [rowLines_eq hlabels haccepted] at hline
  obtain ⟨s, hs, rfl⟩ := List.mem_map.mp hline
  exact ⟨row, vs, s, haccepted, hvalue, hs, rfl⟩

/-- Lines of one row are for different samples. -/
theorem rowLines_pairwise {parse : Bytes → Option (Double F)} (hreads : f64.Reads parse)
    (hvalid : fam.Valid) (hfam : fam.Clean) {row : Row F} (hlabels : row.labels = pack vs)
    (h : Accepted fam vs) (hvalue : row.value.Matches fam) :
    (rowLines f64 fam row).Pairwise fun a b => ¬ a.Same b := by
  rw [rowLines_eq hlabels h, List.pairwise_map]
  have hnodup := nodup_rowSamples hreads hvalid hvalue
  rw [List.Nodup, List.pairwise_map] at hnodup
  refine hnodup.imp_of_mem fun hs hs' hne hsame => hne (Prod.ext hsame.1 ?_)
  exact extra_of_sameSet (extra_not_mem hfam hvalue hs) (extra_not_mem hfam hvalue hs') hsame.2

omit [LinearOrder F] [Zero F] in
/-- Two rows of a family with a line for one sample have the same values. -/
theorem labels_of_same (hfam : fam.Clean) {row row' : Row F} (hlabels : row.labels = pack vs)
    (hlabels' : row'.labels = pack vs') (h : Accepted fam vs) (h' : Accepted fam vs')
    (hvalue : row.value.Matches fam) (hvalue' : row'.value.Matches fam) {line line' : Line}
    (hline : line ∈ rowLines f64 fam row) (hline' : line' ∈ rowLines f64 fam row')
    (hsame : line.Same line') : row.labels = row'.labels := by
  rw [rowLines_eq hlabels h] at hline
  rw [rowLines_eq hlabels' h'] at hline'
  obtain ⟨s, hs, rfl⟩ := List.mem_map.mp hline
  obtain ⟨s', hs', rfl⟩ := List.mem_map.mp hline'
  have hvs := values_of_sameSet hfam h h' (extra_not_mem hfam hvalue hs)
    (extra_not_mem hfam hvalue' hs') hsame.2
  rw [hlabels, hlabels', hvs]

/-- Lines of one family are for different samples. -/
theorem Clean.familyLines {parse : Bytes → Option (Double F)} (hreads : f64.Reads parse)
    (hr : Clean r) {idx : Nat} (hget : r.families[idx]? = some fam) :
    NoDuplicates (familyLines f64 r fam idx) := by
  have hmem := List.mem_of_getElem? hget
  have hfam := hr.families fam hmem
  have hvalid := hr.wellFormed.families fam hmem
  have hrow : ∀ row ∈ r.rows.filter (·.family = idx), row.family = idx ∧
      ∃ vs, row.labels = pack vs ∧ Accepted fam vs ∧ row.value.Matches fam := by
    intro row hrow
    obtain ⟨hrow, hidx⟩ := List.mem_filter.mp hrow
    have hidx := of_decide_eq_true hidx
    exact ⟨hidx, hr.wellFormed.row_of_family hrow (hidx.symm ▸ hget)⟩
  constructor
  · rw [Metrics.familyLines, List.pairwise_flatMap]
    constructor
    · intro row hmem'
      obtain ⟨-, vs, hlabels, h, hvalue⟩ := hrow row hmem'
      exact rowLines_pairwise hreads hvalid hfam hlabels h hvalue
    · refine ((hr.wellFormed.rows_differ).sublist List.filter_sublist).imp_of_mem ?_
      intro row row' hmem hmem' hdiffer line hline line' hline' hsame
      obtain ⟨hfamily, vs, hlabels, h, hvalue⟩ := hrow row hmem
      obtain ⟨hfamily', vs', hlabels', h', hvalue'⟩ := hrow row' hmem'
      exact hdiffer ⟨hfamily.trans hfamily'.symm,
        labels_of_same hfam hlabels hlabels' h h' hvalue hvalue' hline hline' hsame⟩
  · intro line hline
    obtain ⟨row, vs, s, h, hvalue, hs, rfl⟩ := hr.wellFormed.mem_familyLines hget hline
    exact nodup_labelsOf hfam h (extra_not_mem hfam hvalue hs)

omit [LinearOrder F] [Zero F] in
/-- A line of a histogram is a line of another kind of family only if they clash. -/
theorem clash_of_same {value value' : Value F} (hvalue : value.Matches fam)
    (hvalue' : value'.Matches fam') (h : Accepted fam vs) (h' : Accepted fam' vs')
    (hs : s ∈ rowSamples f64 fam value) (hs' : s' ∈ rowSamples f64 fam' value')
    (hhist : fam.kind = .histogram) (hscalar : fam'.kind ≠ .histogram) (hname : s.name = s'.name)
    (hsame : SameSet (labelsOf fam vs s) (labelsOf fam' vs' s')) : Clash fam fam' := by
  refine ⟨hhist, hscalar, _, shownKeys_of_accepted h, _, shownKeys_of_accepted h', ?_⟩
  obtain ⟨-, hname', hextra'⟩ :=
    (sample_cases hvalue' hs').resolve_right fun hhist' => hscalar hhist'.1
  have hkeys : SameSet ((fam.labelKeys.zip (shown vs)).map Prod.fst ++ s.extra.toList.map Prod.fst)
      ((fam'.labelKeys.zip (shown vs')).map Prod.fst) := by
    rw [labelsOf, labelsOf, hextra', Option.toList_none, List.append_nil] at hsame
    rw [← List.map_append]
    exact ⟨fun k hk => List.map_subset _ hsame.1 hk, fun k hk => List.map_subset _ hsame.2 hk⟩
  -- a bucket has the label for its bound besides, the sum and the count have none
  rcases sample_cases hvalue hs with ⟨hno, -⟩ | ⟨-, ⟨hbucket, bound, hextra⟩ | ⟨hderived, hextra⟩⟩
  · exact absurd hhist hno
  · rw [hextra] at hkeys
    exact .inl ⟨hname'.symm.trans (hname.symm.trans hbucket), hkeys⟩
  · rw [hextra, Option.toList_none, List.map_nil, List.append_nil] at hkeys
    refine .inr ⟨?_, hkeys⟩
    rw [← hname', ← hname]
    exact hderived

omit [LinearOrder F] [Zero F] in
/-- Lines of two families are for different samples, unless the families clash. -/
theorem not_same_of_apart {value value' : Value F} (hvalue : value.Matches fam)
    (hvalue' : value'.Matches fam') (h : Accepted fam vs) (h' : Accepted fam' vs')
    (hs : s ∈ rowSamples f64 fam value) (hs' : s' ∈ rowSamples f64 fam' value')
    (hnames : fam.name ≠ fam'.name) (hapart : ¬ Clash fam fam') (hapart' : ¬ Clash fam' fam) :
    ¬ (s.name = s'.name ∧ SameSet (labelsOf fam vs s) (labelsOf fam' vs' s')) := by
  rintro ⟨hname, hsame⟩
  by_cases hhist : fam.kind = .histogram <;> by_cases hhist' : fam'.kind = .histogram
  · -- the names that two histograms derive are different
    have hsuffix : ∀ {fam : Family F} {value : Value F} {s : Sample}, value.Matches fam →
        s ∈ rowSamples f64 fam value → fam.kind = .histogram →
        ∃ suffix ∈ [bucketSuffix, sumSuffix, countSuffix], s.name = fam.name ++ suffix := by
      intro fam value s hvalue hs hhist
      rcases sample_cases hvalue hs with ⟨hno, -⟩ | ⟨-, ⟨hname, -⟩ | ⟨hname | hname, -⟩⟩
      · exact absurd hhist hno
      · exact ⟨_, by simp, hname⟩
      · exact ⟨_, by simp, hname⟩
      · exact ⟨_, by simp, hname⟩
    obtain ⟨suffix, hmem, heq⟩ := hsuffix hvalue hs hhist
    obtain ⟨suffix', hmem', heq'⟩ := hsuffix hvalue' hs' hhist'
    exact hnames (suffix_injective hmem hmem' (heq.symm.trans (hname.trans heq'))).2
  · exact hapart (clash_of_same hvalue hvalue' h h' hs hs' hhist hhist' hname hsame)
  · exact hapart' (clash_of_same hvalue' hvalue h' h hs' hs hhist' hhist hname.symm
      ⟨hsame.2, hsame.1⟩)
  · obtain ⟨-, heq, -⟩ := (sample_cases hvalue hs).resolve_right fun h => hhist h.1
    obtain ⟨-, heq', -⟩ := (sample_cases hvalue' hs').resolve_right fun h => hhist' h.1
    exact hnames (heq.symm.trans (hname.trans heq'))

theorem Clean.noDuplicates {parse : Bytes → Option (Double F)} (hreads : f64.Reads parse)
    (hr : Clean r) : NoDuplicates (lines f64 r) := by
  have hfamily : ∀ e ∈ r.families.zipIdx, r.families[e.2]? = some e.1 :=
    fun e he => List.mem_zipIdx_iff_getElem?.mp he
  refine ⟨?_, fun line hline => ?_⟩
  · rw [lines, List.pairwise_flatMap]
    refine ⟨fun e he => (hr.familyLines hreads (hfamily e he)).1, ?_⟩
    -- lines of two families: their names differ, and no suffix makes them equal
    have hnames : r.families.zipIdx.Pairwise fun e e' => e.1.name ≠ e'.1.name := by
      have hnodup := hr.wellFormed.names
      rw [List.Nodup, List.pairwise_map, ← List.zipIdx_map_fst 0 r.families, List.pairwise_map]
        at hnodup
      exact hnodup
    refine hnames.imp_of_mem fun {e e'} he he' hne line hline line' hline' => ?_
    obtain ⟨row, vs, s, h, hvalue, hs, rfl⟩ := hr.wellFormed.mem_familyLines (hfamily e he) hline
    obtain ⟨row', vs', s', h', hvalue', hs', rfl⟩ :=
      hr.wellFormed.mem_familyLines (hfamily e' he') hline'
    have hmem := List.mem_of_getElem? (hfamily e he)
    have hmem' := List.mem_of_getElem? (hfamily e' he')
    exact not_same_of_apart hvalue hvalue' h h' hs hs' hne (hr.apart _ hmem _ hmem')
      (hr.apart _ hmem' _ hmem)
  · obtain ⟨e, he, hline⟩ := List.mem_flatMap.mp hline
    exact (hr.familyLines hreads (hfamily e he)).2 line hline

/-- **When every sample has one line**: if every declaration of the run gives a family distinct label names,
without `le` for a histogram, and derives no sample of another family. -/
theorem noDuplicates_of_run {parse : Bytes → Option (Double F)} (hreads : f64.Reads parse)
    (hrun : Run (okStep f64) CleanCall Registry.new r) (out : Bytes) :
    r.renderInto f64 out = out ++ r.families.zipIdx.flatMap (fun e =>
      typeLine e.1 ++ (familyLines f64 r e.1 e.2).flatMap Line.text) ∧
    NoDuplicates (lines f64 r) :=
  ⟨renderInto_lines (clean_of_run hrun).wellFormed out, (clean_of_run hrun).noDuplicates hreads⟩

end

/-! ## A run that keeps samples apart, and three that do not -/

namespace Whole

/-- The text of a whole number, or of infinity. -/
def parse (s : Bytes) : Option (Double Int) :=
  let (negative, digits) := signOf s
  if digits ≠ [] ∧ digits.all isDigit = true then
    some (.finite (if negative then -(readDigits digits : Int) else readDigits digits))
  else if s = infBound then some .posInf
  else none

theorem parse_text (x : Int) : parse (text x) = some (.finite x) := by
  have hdigits : decimal x.natAbs ≠ [] ∧ (decimal x.natAbs).all isDigit = true :=
    ⟨decimal_ne_nil _, List.all_eq_true.mpr fun b hb => isDigit_of_mem_decimal hb⟩
  by_cases hneg : x < 0
  · have hvalue : -(x.natAbs : Int) = x := by omega
    rw [text, if_pos hneg, List.singleton_append, parse, signOf_minus]
    simp only [if_pos hdigits, readDigits_decimal, if_true, hvalue]
  · have hvalue : (x.natAbs : Int) = x := by omega
    rw [text, if_neg hneg, List.nil_append, parse, signOf_decimal]
    simp only [if_pos hdigits, readDigits_decimal, Bool.false_eq_true, if_false, hvalue]

theorem reads : f64.Reads parse where
  display := parse_text
  integer x n h := by
    obtain ⟨hlt, h⟩ := Option.ite_none_right_eq_some.mp h
    cases h
    have hint : (Int64.ofInt x).toInt = x := Int64.toInt_ofInt_of_le (by omega) (by omega)
    have htext : i64Text (Int64.ofInt x) = text x := by
      rw [i64Text, hint, text]
      split <;> rfl
    rw [htext]
    exact parse_text x
  inf := rfl

end Whole

/-- A histogram `h` with the label `a`, and a counter `h_max`. -/
def twoFamilies : Registry Int :=
  ((Registry.new.declare Whole.f64 .histogram [104] [[97]] [.finite 1]).2.declare Whole.f64 .counter
    [104, 95, 109, 97, 120] [] []).2

theorem twoFamilies_clean : Run (okStep Whole.f64) CleanCall Registry.new twoFamilies := by
  have hhist : CleanCall (Registry.new : Registry Int) (.declare .histogram [104] [[97]] [.finite 1]) :=
    ⟨⟨by decide, fun _ => by decide⟩, fun _ h => nomatch h⟩
  have hcounter : CleanCall (Registry.new.declare Whole.f64 .histogram [104] [[97]] [.finite 1]).2
      (.declare .counter [104, 95, 109, 97, 120] [] []) := by
    refine ⟨⟨by decide, fun h => nomatch h⟩, fun other hother => ?_⟩
    have hname : other.name = [104] := by
      have hall : ∀ fam ∈ (Registry.new.declare Whole.f64 .histogram [104] [[97]]
          [.finite 1]).2.families, fam.name = [104] := by decide
      exact hall other hother
    refine ⟨(fun h => nomatch h.1), ?_⟩
    rintro ⟨-, -, keys, -, keys', -, ⟨heq, -⟩ | ⟨heq | heq, -⟩⟩ <;>
      exact absurd heq (by rw [hname]; decide)
  exact (Run.refl.tail hhist rfl).tail hcounter rfl

/-- The lines are those of two bounds, of the sum, of the count and of the counter. -/
theorem twoFamilies_noDuplicates : ∃ r,
    exec (okStep Whole.f64) twoFamilies
      [.update (.add 0 (pack [[120]]) (.finite 2)), .update (.add 1 [] (.finite 1))] = some r ∧
    NoDuplicates (lines Whole.f64 r) := by
  have hsome : (exec (okStep Whole.f64) twoFamilies
      [.update (.add 0 (pack [[120]]) (.finite 2)), .update (.add 1 [] (.finite 1))]).isSome := by
    decide
  obtain ⟨r, hr⟩ := Option.isSome_iff_exists.mp hsome
  obtain ⟨r', hfirst, hsecond⟩ := Option.bind_eq_some_iff.mp hr
  obtain ⟨_, hsecond, heq⟩ := Option.bind_eq_some_iff.mp hsecond
  cases heq
  have hrun : Run (okStep Whole.f64) CleanCall Registry.new r :=
    (twoFamilies_clean.tail (show CleanCall _ (.update _) from trivial) hfirst).tail
      (show CleanCall _ (.update _) from trivial) hsecond
  exact ⟨r, hr, (noDuplicates_of_run Whole.reads hrun []).2⟩

/-- Some lines after the calls are for one sample, or have a label name twice. -/
def FindsDuplicates (calls : List (Call Int)) : Prop :=
  ∃ r, exec (okStep Whole.f64) Registry.new calls = some r ∧ ¬ NoDuplicates (lines Whole.f64 r)

/-- A counter with the label `a` twice; a histogram with the label `le`; a histogram `h` and a counter
`h_sum`. -/
theorem duplicates_found :
    FindsDuplicates [.declare .counter [99] [[97], [97]] [],
      .update (.add 0 (pack [[120], [121]]) (.finite 1))] ∧
    FindsDuplicates [.declare .histogram [104] [leKey] [.finite 1],
      .update (.add 0 (pack [[120]]) (.finite 2))] ∧
    FindsDuplicates [.declare .histogram [104] [] [.finite 1],
      .declare .counter ([104] ++ sumSuffix) [] [], .update (.add 0 [] (.finite 2)),
      .update (.add 1 [] (.finite 2))] := by
  have hfinds : ∀ calls, ((exec (okStep Whole.f64) Registry.new calls).any fun r =>
      !decide (NoDuplicates (lines Whole.f64 r))) = true → FindsDuplicates calls := by
    intro calls h
    obtain ⟨r, hr, hdup⟩ := (Option.any_eq_true _ _).mp h
    exact ⟨r, hr, by simpa using hdup⟩
  exact ⟨hfinds _ (by decide), hfinds _ (by decide), hfinds _ (by decide)⟩

end Castrum.Metrics
