import Castrum.Json.Decimal
import Castrum.Lib.Prefix
import Castrum.Lib.Split
import Castrum.Metrics.Registry

/-!
# Castrum — the text and the snapshot of a registry (`rust/metrics/registry.rs`)

Both go through the families in the order of their declaration, with the series of a family sorted by
the bytes of their labels.

* `writeLabels` — the labels of one line;
* `renderRow` — the lines of one series;
* `renderInto` / `snapshotInto` — the two outputs;
* `mem_rows_iff` — the rows are the series;
* `renderInto_eq` — the text, family by family.
-/

namespace Castrum.Metrics

/-! ## Labels -/

/-- `write_escaped`: what one byte becomes. -/
def escapeByte (c : UInt8) : Bytes :=
  if c = 92 then [92, 92] else if c = 34 then [92, 34] else if c = 10 then [92, 110] else [c]

def writeEscaped (val : Bytes) : Bytes := val.flatMap escapeByte

/-- `emit_pair`, without the comma: `key="escaped"`. -/
def pairText (pair : Bytes × Bytes) : Bytes := pair.1 ++ [61, 34] ++ writeEscaped pair.2 ++ [34]

/-- The pairs in a row, a comma in front of each but the first. -/
def pairsText (wrote : Bool) : List (Bytes × Bytes) → Bytes
  | [] => []
  | pair :: pairs => (if wrote then [44] else []) ++ pairText pair ++ pairsText true pairs

/-- The loop of `write_labels` over `raw_values[start..]`. A key that is missing is `l`. -/
def valuePairs (keys : List Bytes) (keyIdx : Nat) (rest : Bytes) : List (Bytes × Bytes) :=
  if rest = [] then []
  else
    match h : cutAt metricsValueSep rest with
    | some (value, rest') =>
      have := length_behind_lt h
      (keys.getD keyIdx [108], value) :: valuePairs keys (keyIdx + 1) rest'
    | none => [(keys.getD keyIdx [108], rest)]
termination_by rest.length

def writeLabels (keys : List Bytes) (rawValues : Bytes) (extra : Option (Bytes × Bytes)) : Bytes :=
  if keys.isEmpty && extra.isNone then []
  else [123] ++ pairsText false (valuePairs keys 0 rawValues ++ extra.toList) ++ [125]

/-! ## Numbers -/

section

variable {F : Type}

/-- `write_f64`. -/
def writeF64 (f64 : Floats F) (v : Double F) : Bytes :=
  match v with
  | .finite x =>
    match f64.integer x with
    | some n => i64Text n
    | none => f64.display v
  | .negZero => i64Text 0
  | _ => f64.display v

def writeU64 (v : Nat) : Bytes := decimal v

/-! ## Lines -/

def bucketSuffix : Bytes := [95, 98, 117, 99, 107, 101, 116]

def sumSuffix : Bytes := [95, 115, 117, 109]

def countSuffix : Bytes := [95, 99, 111, 117, 110, 116]

/-- The name of the label that holds the bound of a bucket. -/
def leKey : Bytes := [108, 101]

/-- The bound of the last bucket, `+Inf`. -/
def infBound : Bytes := [43, 73, 110, 102]

/-- One line: the name, the labels, a blank and the value. -/
def lineText (name labels value : Bytes) : Bytes := name ++ labels ++ [32] ++ value ++ [10]

/-- The loop over the buckets, from the one numbered `i` on, with the running total. -/
def bucketLines (f64 : Floats F) (fam : Family F) (labels : Bytes) (counts : List Nat) :
    (i cumulative : Nat) → List (Double F) → Bytes
  | _, _, [] => []
  | i, cumulative, le :: buckets =>
    let total := cumulative + counts.getD i 0
    lineText (fam.name ++ bucketSuffix) (writeLabels fam.labelKeys labels (some (leKey, writeF64 f64 le)))
        (writeU64 total) ++
      bucketLines f64 fam labels counts (i + 1) total buckets

/-- The lines of one series. -/
def renderRow (f64 : Floats F) (fam : Family F) (labels : Bytes) (value : Value F) : Bytes :=
  match value with
  | .scalar s => lineText fam.name (writeLabels fam.labelKeys labels none) (writeF64 f64 s)
  | .hist counts sum count =>
    bucketLines f64 fam labels counts 0 0 fam.buckets ++
      lineText (fam.name ++ bucketSuffix) (writeLabels fam.labelKeys labels (some (leKey, infBound)))
        (writeU64 count) ++
      lineText (fam.name ++ sumSuffix) (writeLabels fam.labelKeys labels none) (writeF64 f64 sum) ++
      lineText (fam.name ++ countSuffix) (writeLabels fam.labelKeys labels none) (writeU64 count)

/-- `# TYPE name kind`. -/
def typeLine (fam : Family F) : Bytes :=
  let kindStr : Bytes :=
    match fam.kind with
    | .counter => [99, 111, 117, 110, 116, 101, 114]
    | .gauge => [103, 97, 117, 103, 101]
    | .histogram => [104, 105, 115, 116, 111, 103, 114, 97, 109]
  [35, 32, 84, 89, 80, 69, 32] ++ fam.name ++ [32] ++ kindStr ++ [10]

/-! ## Rows -/

structure Row (F : Type) where
  family : Nat
  labels : Bytes
  value : Value F

/-- A series as a row: its key is taken apart again. -/
def Row.ofEntry (key : Bytes) (value : Value F) : Row F := ⟨wordOf (key.take 4), key.drop 5, value⟩

/-- The order of the rows. -/
def Row.Before (a b : Row F) : Prop :=
  a.family < b.family ∨ (a.family = b.family ∧ a.labels ≤ b.labels)

instance : DecidableRel (Row.Before (F := F)) :=
  fun a b => inferInstanceAs (Decidable (a.family < b.family ∨ (a.family = b.family ∧ a.labels ≤ b.labels)))

/-- The rows of all shards. -/
def Registry.entryRows (r : Registry F) : List (Row F) :=
  (List.finRange metricsShards).flatMap fun i =>
    (r.shards.maps i).entries.map fun e => Row.ofEntry e.1 e.2

def Registry.rows (r : Registry F) : List (Row F) := r.entryRows.insertionSort Row.Before

/-- The loop over the families, from the one numbered `idx` on, with the rows that are left. -/
def renderFamilies (f64 : Floats F) : (idx : Nat) → List (Family F) → List (Row F) → Bytes
  | _, [], _ => []
  | idx, fam :: families, rows =>
    typeLine fam ++
      (rows.takeWhile (·.family = idx)).flatMap (fun row => renderRow f64 fam row.labels row.value) ++
      renderFamilies f64 (idx + 1) families (rows.dropWhile (·.family = idx))

def Registry.renderInto (f64 : Floats F) (r : Registry F) (out : Bytes) : Bytes :=
  out ++ renderFamilies f64 0 r.families r.rows

/-! ## The snapshot -/

def kindByte : MetricsKind → UInt8
  | .counter => 0
  | .gauge => 1
  | .histogram => 2

/-- A family in the snapshot. -/
def snapshotFamily (f64 : Floats F) (fam : Family F) (id : Nat) : Bytes :=
  let keysJoined := [metricsValueSep].intercalate fam.labelKeys
  le32 id ++ [kindByte fam.kind] ++ packedComponent fam.name ++ packedComponent keysJoined ++
    le32 fam.buckets.length ++ fam.buckets.flatMap f64.toLeBytes

/-- A series in the snapshot. -/
def snapshotRow (f64 : Floats F) (row : Row F) : Bytes :=
  le32 row.family ++ packedComponent row.labels ++
    match row.value with
    | .scalar v => f64.toLeBytes v
    | .hist counts sum count => f64.toLeBytes sum ++ le64 count ++ counts.flatMap le64

def Registry.snapshotInto (f64 : Floats F) (r : Registry F) (out : Bytes) : Bytes :=
  out ++ le32 1 ++ le32 r.families.length ++
    r.families.zipIdx.flatMap (fun e => snapshotFamily f64 e.1 e.2) ++
    le32 r.rows.length ++ r.rows.flatMap (snapshotRow f64)

/-! ## The rows of a family -/

variable {r : Registry F} {row : Row F}

theorem mem_rows_iff :
    row ∈ r.rows ↔ ∃ key value, r.shards.get key = some value ∧ row = Row.ofEntry key value := by
  have hperm := List.perm_insertionSort Row.Before r.entryRows
  rw [Registry.rows, hperm.mem_iff, Registry.entryRows, List.mem_flatMap]
  constructor
  · rintro ⟨i, -, hrow⟩
    obtain ⟨e, he, rfl⟩ := List.mem_map.mp hrow
    exact ⟨e.1, e.2, mem_entries_iff.mp ⟨i, he⟩, rfl⟩
  · rintro ⟨key, value, hget, rfl⟩
    obtain ⟨i, he⟩ := mem_entries_iff.mpr hget
    exact ⟨i, List.mem_finRange i, List.mem_map.mpr ⟨_, he, rfl⟩⟩

theorem before_total (a b : Row F) : a.Before b ∨ b.Before a := by
  rcases lt_trichotomy a.family b.family with h | h | h
  · exact .inl (.inl h)
  · rcases List.le_total a.labels b.labels with hle | hle
    · exact .inl (.inr ⟨h, hle⟩)
    · exact .inr (.inr ⟨h.symm, hle⟩)
  · exact .inr (.inl h)

theorem before_trans {a b c : Row F} (hab : a.Before b) (hbc : b.Before c) : a.Before c := by
  rcases hab with hab | ⟨hab, hle⟩
  · rcases hbc with hbc | ⟨hbc, -⟩
    · exact .inl (hab.trans hbc)
    · exact .inl (hbc ▸ hab)
  · rcases hbc with hbc | ⟨hbc, hle'⟩
    · exact .inl (hab ▸ hbc)
    · exact .inr ⟨hab.trans hbc, List.le_trans hle hle'⟩

/-- The rows are sorted by their families. -/
theorem rows_sorted (r : Registry F) : r.rows.Pairwise fun a b => a.family ≤ b.family := by
  have : Std.Total (Row.Before (F := F)) := ⟨before_total⟩
  have : IsTrans (Row F) Row.Before := ⟨fun _ _ _ => before_trans⟩
  apply (List.pairwise_insertionSort Row.Before r.entryRows).imp
  rintro a b (h | ⟨h, -⟩)
  · exact h.le
  · exact h.le

theorem renderFamilies_eq (f64 : Floats F) {idx : Nat} {families : List (Family F)}
    {rows : List (Row F)} (hsorted : rows.Pairwise fun a b => a.family ≤ b.family)
    (hle : ∀ row ∈ rows, idx ≤ row.family) :
    renderFamilies f64 idx families rows = (families.zipIdx idx).flatMap fun e =>
      typeLine e.1 ++ (rows.filter (·.family = e.2)).flatMap fun row =>
        renderRow f64 e.1 row.labels row.value := by
  induction families generalizing idx rows with
  | nil => rfl
  | cons fam families ih =>
    -- the rows are sorted by family, so that those of the first one stand in front
    have hfront : rows.Pairwise fun a b =>
        decide (b.family = idx) = true → decide (a.family = idx) = true := by
      apply hsorted.imp_of_mem
      intro a b ha _ hab hb
      rw [decide_eq_true_iff] at hb ⊢
      exact Nat.le_antisymm (hb ▸ hab) (hle a ha)
    rw [renderFamilies, takeWhile_eq_filter hfront, dropWhile_eq_filter hfront, List.zipIdx_cons,
      List.flatMap_cons, ih (hsorted.sublist List.filter_sublist), List.append_assoc,
      List.append_assoc]
    · congr 2
      apply List.flatMap_congr
      intro e he
      -- a later family loses no row with those of the first
      have hlt := List.le_snd_of_mem_zipIdx he
      congr 2
      rw [List.filter_filter]
      apply List.filter_congr
      intro row _
      by_cases heq : row.family = e.2
      · rw [decide_eq_true heq, Bool.true_and, decide_eq_false (by omega)]
        rfl
      · rw [decide_eq_false heq, Bool.false_and]
    · intro row hrow
      obtain ⟨hmem, hne⟩ := List.mem_filter.mp hrow
      rw [Bool.not_eq_true', decide_eq_false_iff_not] at hne
      exact Nat.lt_of_le_of_ne (hle row hmem) (Ne.symm hne)

/-- **The text, family by family**: the line with the kind, and the lines of its rows. -/
theorem renderInto_eq (f64 : Floats F) (r : Registry F) (out : Bytes) :
    r.renderInto f64 out = out ++ r.families.zipIdx.flatMap fun e =>
      typeLine e.1 ++ (r.rows.filter (·.family = e.2)).flatMap fun row =>
        renderRow f64 e.1 row.labels row.value := by
  rw [Registry.renderInto, renderFamilies_eq f64 (rows_sorted r) fun row _ => Nat.zero_le _]

end

end Castrum.Metrics
