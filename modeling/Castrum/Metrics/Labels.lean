import Castrum.Metrics.Failed
import Castrum.Metrics.Runs

/-!
# Castrum — the labels of a row (`write_labels` of `rust/metrics/registry.rs`)

The values of a series are packed with a separator between them. They are counted by their separators and
written by a loop over what is left of the text, which ends when nothing is left: the last value is not
written if it is empty.

* `renderRow_eq` — the lines of a row, one by one;
* `valuePairs_pack` — the pairs that are written for a list of values;
* `readPairs_pairsText` — what is written for some pairs reads as these pairs;
* `rowCarries_iff` — when a row shows all its labels.
-/

namespace Castrum.Metrics

/-! ## The lines of a row -/

section

variable {F : Type}

/-- A line of a row, without the labels of its series. -/
structure Sample where
  name : Bytes
  extra : Option (Bytes × Bytes)
  value : Bytes

/-- The lines of the buckets, from the one numbered `i` on. -/
def bucketSamples (f64 : Floats F) (fam : Family F) (counts : List Nat) :
    (i cumulative : Nat) → List (Double F) → List Sample
  | _, _, [] => []
  | i, cumulative, le :: buckets =>
    let total := cumulative + counts.getD i 0
    ⟨fam.name ++ bucketSuffix, some (leKey, writeF64 f64 le), writeU64 total⟩ ::
      bucketSamples f64 fam counts (i + 1) total buckets

def rowSamples (f64 : Floats F) (fam : Family F) : Value F → List Sample
  | .scalar s => [⟨fam.name, none, writeF64 f64 s⟩]
  | .hist counts sum count =>
    bucketSamples f64 fam counts 0 0 fam.buckets ++
      [⟨fam.name ++ bucketSuffix, some (leKey, infBound), writeU64 count⟩,
        ⟨fam.name ++ sumSuffix, none, writeF64 f64 sum⟩,
        ⟨fam.name ++ countSuffix, none, writeU64 count⟩]

/-- The text of a line. -/
def Sample.text (s : Sample) (labelKeys : List Bytes) (labels : Bytes) : Bytes :=
  lineText s.name (writeLabels labelKeys labels s.extra) s.value

theorem bucketLines_samples (f64 : Floats F) (fam : Family F) (labels : Bytes) (counts : List Nat)
    (i cumulative : Nat) (buckets : List (Double F)) :
    bucketLines f64 fam labels counts i cumulative buckets =
      (bucketSamples f64 fam counts i cumulative buckets).flatMap (·.text fam.labelKeys labels) := by
  induction buckets generalizing i cumulative with
  | nil => rfl
  | cons le buckets ih =>
    rw [bucketLines, bucketSamples, List.flatMap_cons, ih]
    rfl

/-- **The lines of a row**, one by one. -/
theorem renderRow_eq (f64 : Floats F) (fam : Family F) (labels : Bytes) (value : Value F) :
    renderRow f64 fam labels value =
      (rowSamples f64 fam value).flatMap (·.text fam.labelKeys labels) := by
  cases value with
  | scalar s => exact (List.append_nil _).symm
  | hist counts sum count =>
    rw [renderRow, rowSamples, bucketLines_samples, List.flatMap_append]
    simp [Sample.text, List.append_assoc]

end

/-! ## What is written for a list of values -/

/-- The values in front of the label set's key, a separator between two. -/
def pack (vs : List Bytes) : Bytes := [metricsValueSep].intercalate vs

section

variable {vs vs' : List Bytes} {keys : List Bytes}

theorem pack_cons_cons (v w : Bytes) (vs : List Bytes) :
    pack (v :: w :: vs) = v ++ metricsValueSep :: pack (w :: vs) := by
  rw [pack, List.intercalate_cons_cons, List.append_assoc]
  rfl

/-- The values come back, without the last one if it is empty. -/
theorem pieces_pack (h : ∀ v ∈ vs, metricsValueSep ∉ v) :
    pieces metricsValueSep (pack vs) = if vs.getLast? = some [] then vs.dropLast else vs := by
  induction vs with
  | nil => rfl
  | cons v vs ih =>
    obtain ⟨hv, hvs⟩ := List.forall_mem_cons.mp h
    cases vs with
    | nil =>
      rw [pack, List.intercalate_singleton, List.getLast?_singleton]
      by_cases hnil : v = []
      · rw [hnil]
        rfl
      · rw [pieces_of_not_mem hnil hv, if_neg fun h => hnil (Option.some.inj h)]
    | cons w vs =>
      rw [pack_cons_cons, pieces_append, List.splitOn_eq_singleton hv, ih hvs,
        List.getLast?_cons_cons]
      split <;> rfl

/-- The values that are written. -/
def shown (vs : List Bytes) : List Bytes := if vs.getLast? = some [] then vs.dropLast else vs

/-- The loop goes through the pieces. -/
theorem valuePairs_eq (keys : List Bytes) (keyIdx : Nat) (rest : Bytes) :
    valuePairs keys keyIdx rest =
      ((pieces metricsValueSep rest).zipIdx keyIdx).map fun e => (keys.getD e.2 [108], e.1) := by
  induction rest using splitInduction metricsValueSep generalizing keyIdx with
  | last p hp =>
    rw [valuePairs]
    by_cases hnil : p = []
    · rw [if_pos hnil, hnil, pieces_nil]
      rfl
    · rw [if_neg hnil, pieces_of_not_mem hnil hp]
      split
      · next h => cases (cutAt_eq_none_iff.mpr hp).symm.trans h
      · rfl
  | piece p q hp ih =>
    rw [valuePairs, if_neg (List.append_ne_nil_of_right_ne_nil p (List.cons_ne_nil _ q)),
      pieces_append, List.splitOn_eq_singleton hp]
    split
    · next h =>
      cases h.symm.trans (cutAt_append hp q)
      rw [ih, List.singleton_append, List.zipIdx_cons, List.map_cons]
    · next h => cases h.symm.trans (cutAt_append hp q)

theorem zipIdx_getD {k : Nat} (h : k + vs.length ≤ keys.length) :
    ((vs.zipIdx k).map fun e => (keys.getD e.2 [108], e.1)) = (keys.drop k).zip vs := by
  induction vs generalizing k with
  | nil => rw [List.zipIdx_nil, List.map_nil, List.zip_nil_right]
  | cons v vs ih =>
    rw [List.length_cons] at h
    have hk : k < keys.length := by omega
    rw [List.zipIdx_cons, List.map_cons, ih (by omega), List.drop_eq_getElem_cons hk,
      List.zip_cons_cons, List.getD_eq_getElem?_getD,
      List.getElem?_eq_getElem hk, Option.getD_some]

/-- **The pairs that are written** for a list of values: each with its key, and none for an empty value at
the end. -/
theorem valuePairs_pack (hlen : vs.length = keys.length) (h : ∀ v ∈ vs, metricsValueSep ∉ v) :
    valuePairs keys 0 (pack vs) = keys.zip (shown vs) := by
  have hle : (shown vs).length ≤ keys.length := by
    unfold shown
    split
    · rw [List.length_dropLast, hlen]
      exact Nat.sub_le _ _
    · exact hlen.le
  rw [valuePairs_eq, pieces_pack h, ← shown, zipIdx_getD (by rw [Nat.zero_add]; exact hle),
    List.drop_zero]

end

/-! ## What the text reads as -/

/-- An escaped value up to its closing quote, and what is behind it. -/
def readValue : Bytes → Option (Bytes × Bytes)
  | [] => none
  | 34 :: text => some ([], text)
  | 92 :: 92 :: text => (readValue text).map fun r => (92 :: r.1, r.2)
  | 92 :: 34 :: text => (readValue text).map fun r => (34 :: r.1, r.2)
  | 92 :: 110 :: text => (readValue text).map fun r => (10 :: r.1, r.2)
  | 92 :: _ => none
  | c :: text => (readValue text).map fun r => (c :: r.1, r.2)

/-- Pairs `key="value"` with a comma between two, up to the closing brace, and what is behind it. The
bound on their number is one on the recursion. -/
def readPairs : (fuel : Nat) → Bytes → Option (List (Bytes × Bytes) × Bytes)
  | 0, _ => none
  | fuel + 1, text =>
    match cutAt 61 text with
    | some (key, 34 :: text) =>
      match readValue text with
      | some (value, 44 :: text) => (readPairs fuel text).map fun r => ((key, value) :: r.1, r.2)
      | some (value, 125 :: text) => some ([(key, value)], text)
      | _ => none
    | _ => none

/-- The labels of a line behind its name. -/
def readLabels (name line : Bytes) : Option (List (Bytes × Bytes)) :=
  match line.drop name.length with
  | 123 :: text => (readPairs text.length text).map Prod.fst
  | _ => none

theorem readValue_writeEscaped (v rest : Bytes) :
    readValue (writeEscaped v ++ 34 :: rest) = some (v, rest) := by
  induction v with
  | nil => rfl
  | cons c v ih =>
    rw [writeEscaped, List.flatMap_cons, List.append_assoc, ← writeEscaped]
    unfold escapeByte
    by_cases hback : c = 92
    · rw [if_pos hback, hback]
      show (readValue (writeEscaped v ++ 34 :: rest)).map _ = _
      rw [ih]
      rfl
    · rw [if_neg hback]
      by_cases hquote : c = 34
      · rw [if_pos hquote, hquote]
        show (readValue (writeEscaped v ++ 34 :: rest)).map _ = _
        rw [ih]
        rfl
      · rw [if_neg hquote]
        by_cases hnewline : c = 10
        · rw [if_pos hnewline, hnewline]
          show (readValue (writeEscaped v ++ 34 :: rest)).map _ = _
          rw [ih]
          rfl
        · rw [if_neg hnewline, List.singleton_append]
          -- none of the three that are escaped: the byte stands for itself
          have hstep : readValue (c :: (writeEscaped v ++ 34 :: rest)) =
              (readValue (writeEscaped v ++ 34 :: rest)).map fun r => (c :: r.1, r.2) := by
            rw [readValue]
            exacts [hquote, fun _ h _ => hback h, fun _ h _ => hback h, fun _ h _ => hback h, hback]
          rw [hstep, ih]
          rfl

section

variable {pairs : List (Bytes × Bytes)}

theorem pairsText_true (hne : pairs ≠ []) : pairsText true pairs = 44 :: pairsText false pairs := by
  cases pairs with
  | nil => exact absurd rfl hne
  | cons pair pairs => rfl

theorem length_le_pairsText (wrote : Bool) (pairs : List (Bytes × Bytes)) :
    pairs.length ≤ (pairsText wrote pairs).length := by
  induction pairs generalizing wrote with
  | nil => exact Nat.zero_le _
  | cons pair pairs ih =>
    have hle := ih true
    rw [pairsText, List.length_append, List.length_append, List.length_cons, pairText]
    simp only [List.length_append, List.length_cons, List.length_nil]
    omega

/-- **What is written for some pairs reads as these pairs.** -/
theorem readPairs_pairsText {fuel : Nat} (hfuel : pairs.length ≤ fuel) (hne : pairs ≠ [])
    (hkeys : ∀ pair ∈ pairs, (61 : UInt8) ∉ pair.1) (rest : Bytes) :
    readPairs fuel (pairsText false pairs ++ 125 :: rest) = some (pairs, rest) := by
  induction pairs generalizing fuel with
  | nil => exact absurd rfl hne
  | cons pair pairs ih =>
    obtain ⟨hkey, hrest⟩ := List.forall_mem_cons.mp hkeys
    obtain ⟨fuel, rfl⟩ : ∃ n, fuel = n + 1 := ⟨fuel - 1, by rw [List.length_cons] at hfuel; omega⟩
    have htext : pairsText false (pair :: pairs) ++ 125 :: rest =
        pair.1 ++ 61 :: 34 :: (writeEscaped pair.2 ++ 34 :: (pairsText true pairs ++ 125 :: rest)) := by
      simp [pairsText, pairText]
    rw [htext, readPairs, cutAt_append hkey]
    simp only [readValue_writeEscaped]
    cases pairs with
    | nil => rfl
    | cons next pairs =>
      rw [pairsText_true (List.cons_ne_nil _ _), List.cons_append]
      simp only [ih (Nat.le_of_succ_le_succ hfuel) (List.cons_ne_nil _ _) hrest]
      rfl

/-- A line reads as the pairs of its labels. -/
theorem readLabels_lineText {keys : List Bytes} {raw : Bytes} {extra : Option (Bytes × Bytes)}
    (hne : valuePairs keys 0 raw ++ extra.toList ≠ []) (hbraces : keys ≠ [] ∨ extra ≠ none)
    (hkeys : ∀ pair ∈ valuePairs keys 0 raw ++ extra.toList, (61 : UInt8) ∉ pair.1)
    (name value : Bytes) :
    readLabels name (lineText name (writeLabels keys raw extra) value) =
      some (valuePairs keys 0 raw ++ extra.toList) := by
  have hwrite : writeLabels keys raw extra =
      123 :: (pairsText false (valuePairs keys 0 raw ++ extra.toList) ++ [125]) := by
    rw [writeLabels, if_neg]
    · rfl
    · rw [Bool.and_eq_true, List.isEmpty_iff, Option.isNone_iff_eq_none]
      exact fun h => hbraces.elim (fun hk => hk h.1) fun he => he h.2
  have hdrop : (lineText name (writeLabels keys raw extra) value).drop name.length =
      123 :: (pairsText false (valuePairs keys 0 raw ++ extra.toList) ++
        125 :: ([32] ++ value ++ [10])) := by
    rw [lineText, List.append_assoc, List.append_assoc, List.append_assoc, List.drop_left, hwrite]
    simp
  rw [readLabels, hdrop]
  simp only
  rw [readPairs_pairsText _ hne hkeys, Option.map_some]
  exact (length_le_pairsText false _).trans (List.sublist_append_left _ _).length_le

end

/-! ## All labels -/

section

variable {F : Type} [LinearOrder F] [Zero F]

/-- Values for the labels of a family that `add` and `set` take. -/
structure Accepted (fam : Family F) (vs : List Bytes) : Prop where
  length : vs.length = fam.labelKeys.length
  clean : ∀ v ∈ vs, (0 : UInt8) ∉ v ∧ metricsValueSep ∉ v
  valid : validateValues (pack vs) fam.labelKeys.length = .ok ()

/-- All lines of the row read as the pairs of all keys with their values, in the order of the keys, and
no line of other values is the same. -/
def RowCarries (f64 : Floats F) (fam : Family F) (vs : List Bytes) (value : Value F) : Prop :=
  ∀ s ∈ rowSamples f64 fam value,
    readLabels s.name (s.text fam.labelKeys (pack vs)) =
      some (fam.labelKeys.zip vs ++ s.extra.toList) ∧
    ∀ vs', Accepted fam vs' → vs' ≠ vs → ∀ text,
      ({ s with value := text } : Sample).text fam.labelKeys (pack vs') ≠
        s.text fam.labelKeys (pack vs)

variable {f64 : Floats F} {r r' : Registry F} {fam : Family F} {vs vs' : List Bytes}
  {value : Value F} {s : Sample}

omit [LinearOrder F] [Zero F] in
/-- The only labels besides those of the series are the bounds. -/
theorem extra_of_mem_bucketSamples {counts : List Nat} {i cumulative : Nat}
    {buckets : List (Double F)} (h : s ∈ bucketSamples f64 fam counts i cumulative buckets) :
    ∃ le ∈ buckets, s.name = fam.name ++ bucketSuffix ∧ s.extra = some (leKey, writeF64 f64 le) := by
  induction buckets generalizing i cumulative with
  | nil => cases h
  | cons le buckets ih =>
    rcases List.mem_cons.mp h with rfl | h
    · exact ⟨le, List.mem_cons_self, rfl, rfl⟩
    · obtain ⟨le', hle', heq⟩ := ih h
      exact ⟨le', List.mem_cons_of_mem _ hle', heq⟩

omit [LinearOrder F] [Zero F] in
theorem extra_of_mem_rowSamples (h : s ∈ rowSamples f64 fam value) {pair : Bytes × Bytes}
    (hpair : pair ∈ s.extra.toList) : pair.1 = leKey := by
  have hnone : ∀ {s : Sample}, s.extra = none → pair ∈ s.extra.toList → pair.1 = leKey := by
    intro s hs hp
    rw [hs] at hp
    cases hp
  have hsome : ∀ {s : Sample} {bound : Bytes}, s.extra = some (leKey, bound) →
      pair ∈ s.extra.toList → pair.1 = leKey := by
    intro s bound hs hp
    rw [hs] at hp
    rw [List.mem_singleton.mp hp]
  cases value with
  | scalar v =>
    rw [List.mem_singleton.mp h] at hpair
    exact hnone rfl hpair
  | hist counts sum count =>
    rcases List.mem_append.mp h with h | h
    · obtain ⟨le, -, -, hextra⟩ := extra_of_mem_bucketSamples h
      exact hsome hextra hpair
    · simp only [List.mem_cons, List.not_mem_nil, or_false] at h
      rcases h with rfl | rfl | rfl
      · exact hsome rfl hpair
      · exact hnone rfl hpair
      · exact hnone rfl hpair

omit [LinearOrder F] [Zero F] in
theorem exists_mem_rowSamples (f64 : Floats F) (fam : Family F) (value : Value F) :
    ∃ s, s ∈ rowSamples f64 fam value := by
  cases value with
  | scalar v => exact ⟨_, List.mem_singleton_self _⟩
  | hist counts sum count => exact ⟨_, List.mem_append_right _ List.mem_cons_self⟩

/-- An identifier has no `=`. -/
theorem not_mem_of_ident {k : Bytes} (h : validMetricIdent k = true) : (61 : UInt8) ∉ k := by
  cases k with
  | nil => exact List.not_mem_nil
  | cons first rest =>
    rw [validMetricIdent, Bool.and_eq_true, Bool.and_eq_true, List.all_eq_true] at h
    obtain ⟨⟨-, hfirst⟩, hrest⟩ := h
    intro hmem
    rcases List.mem_cons.mp hmem with rfl | hmem
    · exact absurd hfirst (by decide)
    · exact absurd (hrest 61 hmem) (by decide)

omit [LinearOrder F] [Zero F] in
/-- Of accepted values not all are left out. -/
theorem Accepted.shown_ne_nil (h : Accepted fam vs) (hkeys : fam.labelKeys ≠ []) : shown vs ≠ [] := by
  have hpos := List.length_pos_iff.mpr hkeys
  rcases (validateValues_eq_ok_iff.mp h.valid).2 with ⟨hzero, -⟩ | ⟨hne, -⟩
  · omega
  · rw [shown, ← pieces_pack fun v hv => (h.clean v hv).2]
    exact pieces_ne_nil hne

omit [LinearOrder F] [Zero F] in
/-- **A line of a row** reads as the pairs that are written. -/
theorem readLabels_text (hidents : ∀ k ∈ fam.labelKeys, validMetricIdent k = true)
    (hkeys : fam.labelKeys ≠ []) (h : Accepted fam vs)
    (hextra : ∀ pair ∈ s.extra.toList, pair.1 = leKey) :
    readLabels s.name (s.text fam.labelKeys (pack vs)) =
      some (fam.labelKeys.zip (shown vs) ++ s.extra.toList) := by
  have hpairs := valuePairs_pack h.length fun v hv => (h.clean v hv).2
  rw [Sample.text, readLabels_lineText, hpairs]
  · rw [hpairs]
    intro hnil
    rcases List.zip_eq_nil_iff.mp (List.append_eq_nil_iff.mp hnil).1 with hnil | hnil
    · exact hkeys hnil
    · exact h.shown_ne_nil hkeys hnil
  · exact .inl hkeys
  · rw [hpairs]
    intro pair hpair
    rcases List.mem_append.mp hpair with hpair | hpair
    · exact not_mem_of_ident (hidents _ (List.of_mem_zip hpair).1)
    · rw [hextra pair hpair]
      decide

theorem length_shown_le (vs : List Bytes) : (shown vs).length ≤ vs.length := by
  unfold shown
  split
  · rw [List.length_dropLast]
    exact Nat.sub_le _ _
  · exact Nat.le_refl _

/-- Lists of one length of which the same is written are the same. -/
theorem shown_injective (hlen : vs'.length = vs.length) (h : shown vs' = shown vs) : vs' = vs := by
  have hshown := congrArg List.length h
  by_cases hnil : vs = []
  · rw [hnil] at hlen ⊢
    exact List.length_eq_zero_iff.mp hlen
  · have hpos := List.length_pos_iff.mpr hnil
    have hlast : ∀ {l : List Bytes}, l.getLast? = some [] → l = l.dropLast ++ [[]] :=
      fun hl => (List.dropLast_append_getLast? _ hl).symm
    -- only an empty last value is dropped, and the lengths tell whether one was
    unfold shown at h hshown
    split at h
    · next hl' =>
      split at h
      · next hl => rw [hlast hl', hlast hl, h]
      · next hl =>
        rw [if_pos hl', if_neg hl, List.length_dropLast] at hshown
        omega
    · next hl' =>
      split at h
      · next hl =>
        rw [if_neg hl', if_pos hl, List.length_dropLast] at hshown
        omega
      · exact h

omit [LinearOrder F] [Zero F] in
/-- Different values give different lines. -/
theorem text_ne (hidents : ∀ k ∈ fam.labelKeys, validMetricIdent k = true)
    (hkeys : fam.labelKeys ≠ []) (h : Accepted fam vs) (h' : Accepted fam vs') (hne : vs' ≠ vs)
    (hextra : ∀ pair ∈ s.extra.toList, pair.1 = leKey) (text : Bytes) :
    ({ s with value := text } : Sample).text fam.labelKeys (pack vs') ≠
      s.text fam.labelKeys (pack vs) := by
  intro heq
  have hread := readLabels_text (s := s) hidents hkeys h hextra
  have hread' := readLabels_text (s := { s with value := text }) hidents hkeys h' hextra
  rw [heq] at hread'
  have hzip := List.append_cancel_right (Option.some.inj (hread'.symm.trans hread))
  have hsnd : ∀ {us : List Bytes}, us.length = fam.labelKeys.length →
      (fam.labelKeys.zip (shown us)).map Prod.snd = shown us := by
    intro us hus
    exact List.map_snd_zip ((length_shown_le us).trans hus.le)
  have hshown := congrArg (List.map Prod.snd) hzip
  rw [hsnd h'.length, hsnd h.length] at hshown
  exact hne (shown_injective (h'.length.trans h.length.symm) hshown)

/-- An update that returns `Ok` leaves a row for its series. -/
theorem row_of_update {u : Update F} (h : r.update f64 u = some (.ok (), r')) :
    ∃ fam value, r.families[u.series.toNat]? = some fam ∧
      validateValues u.values fam.labelKeys.length = .ok () ∧
      (⟨u.series.toNat, u.values, value⟩ : Row F) ∈ r'.rows := by
  have hrow : ∀ {r' : Registry F} {value : Value F},
      r'.shards.get (buildKey u.series u.values) = some value →
      (⟨u.series.toNat, u.values, value⟩ : Row F) ∈ r'.rows := fun hget =>
    mem_rows_iff.mpr ⟨_, _, hget, (ofEntry_buildKey _ _ _).symm⟩
  have hput : ∀ value, ((r.put (buildKey u.series u.values) value).shards.get
      (buildKey u.series u.values)) = some value := fun value =>
    (get_put r.shards _ value _).trans (if_pos rfl)
  cases u with
  | add series values amount =>
    rcases add_cases h with ⟨_, -, hres, -⟩ | ⟨fam, hfam, ⟨value, -, -, rfl⟩ | ⟨_, -, hres, -⟩⟩
    · cases hres
    · obtain ⟨-, hget, hvalid⟩ := addFamily_eq_ok_iff.mp hfam
      exact ⟨fam, value, hget, hvalid, hrow (hput value)⟩
    · cases hres
  | set series values v =>
    rcases set_cases (Option.some.inj h) with ⟨_, -, hres, -⟩ | ⟨fam, hfam, -, hset⟩
    · cases hres
    · obtain ⟨-, hget, -, hvalid⟩ := setFamily_eq_ok hfam
      rcases hset with rfl | ⟨⟨counts, sum, count, hhist⟩, rfl⟩
      · exact ⟨fam, _, hget, hvalid, hrow (hput _)⟩
      · exact ⟨fam, _, hget, hvalid, hrow hhist⟩

/-- **When a row shows all its labels**: when the last value is not empty. The row is there for all values
that `add` and `set` take. -/
theorem rowCarries_iff {u : Update F} (hrun : Run (callStep f64) (fun _ _ => True) Registry.new r)
    (h : r.update f64 u = some (.ok (), r')) (hget : r.families[u.series.toNat]? = some fam)
    (hkeys : fam.labelKeys ≠ []) (hvs : u.values = pack vs)
    (hlen : vs.length = fam.labelKeys.length)
    (hclean : ∀ v ∈ vs, (0 : UInt8) ∉ v ∧ metricsValueSep ∉ v) :
    ∃ value, (⟨u.series.toNat, pack vs, value⟩ : Row F) ∈ r'.rows ∧
      renderRow f64 fam (pack vs) value =
        (rowSamples f64 fam value).flatMap (·.text fam.labelKeys (pack vs)) ∧
      (RowCarries f64 fam vs value ↔ vs.getLast? ≠ some []) := by
  obtain ⟨fam', value, hget', hvalid, hrow⟩ := row_of_update h
  cases hget.symm.trans hget'
  rw [hvs] at hvalid hrow
  have haccepted : Accepted fam vs := ⟨hlen, hclean, hvalid⟩
  have hidents := ((wellFormed_of_run hrun).families fam (List.mem_of_getElem? hget)).labelKeys
  refine ⟨value, hrow, renderRow_eq f64 fam _ value, fun hcarries hlast => ?_, fun hlast s hs => ?_⟩
  · -- some sample is shown, and it has one label too few
    obtain ⟨s, hs⟩ := exists_mem_rowSamples f64 fam value
    have hread := readLabels_text hidents hkeys haccepted fun _ => extra_of_mem_rowSamples hs
    have heq := congrArg List.length (Option.some.inj (hread.symm.trans (hcarries s hs).1))
    have hpos := List.length_pos_iff.mpr hkeys
    rw [List.length_append, List.length_append, List.length_zip, List.length_zip, shown, if_pos hlast,
      List.length_dropLast] at heq
    omega
  · have hextra := fun pair (hpair : pair ∈ s.extra.toList) => extra_of_mem_rowSamples hs hpair
    have hread := readLabels_text hidents hkeys haccepted hextra
    rw [shown, if_neg hlast] at hread
    exact ⟨hread, fun vs' haccepted' hne => text_ne hidents hkeys haccepted haccepted' hne hextra⟩

end

/-! ## Two labels -/

/-- A counter `c` with the labels `a` and `b`. -/
def twoLabels : Registry Int := (Registry.new.declare Whole.f64 .counter [99] [[97], [98]] []).2

def twoLabelsFamily : Family Int := ⟨[99], .counter, [[97], [98]], []⟩

/-- `x` and `y` are both shown. -/
theorem twoLabels_shown : ∃ r' value,
    twoLabels.update Whole.f64 (.add 0 (pack [[120], [121]]) (.finite 1)) = some (.ok (), r') ∧
      (⟨0, pack [[120], [121]], value⟩ : Row Int) ∈ r'.rows ∧
      RowCarries Whole.f64 twoLabelsFamily [[120], [121]] value := by
  have hrun : ((twoLabels.update Whole.f64 (.add 0 (pack [[120], [121]]) (.finite 1))).map
      Prod.fst) = some (.ok ()) := by decide
  obtain ⟨⟨res, r'⟩, hupdate, rfl⟩ := Option.map_eq_some_iff.mp hrun
  have hdeclare : callStep Whole.f64 Registry.new (.declare .counter [99] [[97], [98]] []) =
      some twoLabels := rfl
  obtain ⟨value, hrow, -, hiff⟩ := rowCarries_iff
    (show Run (callStep Whole.f64) (fun _ _ => True) Registry.new twoLabels from
      Run.refl.tail trivial hdeclare) hupdate
    (show twoLabels.families[0]? = some twoLabelsFamily from rfl) (by decide) rfl rfl (by decide)
  exact ⟨r', value, hupdate, hrow, hiff.mpr (by decide)⟩

/-- `x` and the empty value are accepted, and the second label is not shown. -/
theorem twoLabels_dropped :
    (twoLabels.update Whole.f64 (.add 0 (pack [[120], []]) (.finite 1))).map Prod.fst =
      some (.ok ()) ∧
    readLabels [99] (renderRow Whole.f64 twoLabelsFamily (pack [[120], []]) (.scalar (.finite 1))) =
      some [([97], [120])] ∧
    ¬ RowCarries Whole.f64 twoLabelsFamily [[120], []] (.scalar (.finite 1)) := by
  have haccepted : Accepted twoLabelsFamily [[120], []] := ⟨rfl, by decide, rfl⟩
  have hread := readLabels_text (s := ⟨[99], none, writeF64 Whole.f64 (.finite 1)⟩)
    (show ∀ k ∈ twoLabelsFamily.labelKeys, validMetricIdent k = true by decide) (by decide) haccepted
    nofun
  refine ⟨by decide, hread, fun hcarries => ?_⟩
  have hall := (hcarries _ (List.mem_singleton_self _)).1
  exact absurd (hread.symm.trans hall) (by decide)

end Castrum.Metrics
