import Castrum.Lib.PrefixCode
import Castrum.Lib.Split
import Castrum.Shared.Metrics

/-!
# Castrum — the exposition of a registry (`src/shared/metrics.ts`)

`render` writes each series on a line of its own. Label values come from requests; what stands for them in a
line is escaped, so that they neither end the line nor run into each other.

* `escapeLabel_splitsOff` — an escaped value and the quote behind it split off any text;
* `keyOf_eq_iff` — the key of a series says all its label values;
* `Tidy.step` — the keys of an entry are keys of label sets, and nothing declared has a newline;
* `exposition_exact` — the lines of the text are the lines that were written, in every state reached.
-/

namespace Castrum

namespace MetricsRegistry

/-! ## The source -/

def seriesDroppedMetric : Str := str "castrum_metrics_series_dropped_total"

def familyHeader (name help kind : Str) : List Str :=
  [str "# HELP " ++ name ++ str " " ++ help, str "# TYPE " ++ name ++ str " " ++ kind]

section

variable (numText : Num → Str)

/-- `renderCounter` and `renderGauge`, with the text of a number. -/
def renderScalar (kind : Str) (e : ScalarEntry) : List Str :=
  familyHeader e.name e.help kind ++ e.values.entries.map fun (key, value) =>
    if key = [] then e.name ++ str " " ++ numText value
    else e.name ++ str "\x7b" ++ key ++ str "\x7d " ++ numText value

def renderCounter (e : ScalarEntry) : List Str := renderScalar numText (str "counter") e

def renderGauge (e : ScalarEntry) : List Str := renderScalar numText (str "gauge") e

/-- The line of slot `i`. -/
def bucketLine (e : HistogramEntry) (key : Str) (counts : List Nat) (i : Nat) : Str :=
  let le := bound e.buckets i
  let leLabel := if le = .posInf then str "+Inf" else numText le
  let full := if key = [] then str "le=\"" ++ leLabel ++ str "\"" else key ++ str ",le=\"" ++ leLabel ++ str "\""
  e.name ++ str "_bucket\x7b" ++ full ++ str "\x7d " ++ numText (.finite (counts.getD i 0 : Nat))

def seriesLines (e : HistogramEntry) (key : Str) (counts : List Nat) : List Str :=
  let sum := (e.sums.get? key).getD (.finite 0)
  let baseSuffix := if key = [] then [] else str "\x7b" ++ key ++ str "\x7d"
  (List.range (e.buckets.length + 1)).map (bucketLine numText e key counts) ++
    [e.name ++ str "_sum" ++ baseSuffix ++ str " " ++ numText sum,
      e.name ++ str "_count" ++ baseSuffix ++ str " " ++ numText (.finite (counts.getLastD 0 : Nat))]

def renderHistogram (e : HistogramEntry) : List Str :=
  familyHeader e.name e.help (str "histogram") ++
    e.counts.entries.flatMap fun (key, counts) => seriesLines numText e key counts

/-- The family that reports the dropped series, unless one of its name was declared. -/
def droppedLines (r : Registry HistogramEntry) : List Str :=
  if 0 < r.seriesDropped ∧ seriesDroppedMetric ∉ r.counters.keys ∧ seriesDroppedMetric ∉ r.gauges.keys ∧
      seriesDroppedMetric ∉ r.histograms.keys then
    familyHeader seriesDroppedMetric (str "Total metric series evicted by the per-family cardinality cap.")
      (str "counter") ++ [seriesDroppedMetric ++ str " " ++ numText (.finite (r.seriesDropped : Nat))]
  else []

/-- The entries that names of a map stand for, in the order of the names. -/
def entriesOf {E : Type} (names : JsMap Str Nat) (entries : List E) : List E :=
  names.entries.filterMap fun p => entries[p.2]?

def Registry.lines (r : Registry HistogramEntry) : List Str :=
  (entriesOf r.counters r.scalars).flatMap (renderCounter numText) ++
    (entriesOf r.gauges r.scalars).flatMap (renderGauge numText) ++
    (entriesOf r.histograms r.hists).flatMap (renderHistogram numText) ++ droppedLines numText r

def Registry.render (r : Registry HistogramEntry) : Str := ['\n'].intercalate (r.lines numText) ++ ['\n']

end

/-! ## Escaped values

Three replacements in a row are one replacement of each character, which can be undone. -/

/-- What stands for a character in the value of a label. -/
def escapeChar (c : Char) : Str :=
  if c = '\\' then ['\\', '\\'] else if c = '"' then ['\\', '"'] else if c = '\n' then ['\\', 'n'] else [c]

/-- One replacement after the other, or all at once. -/
theorem escapeLabel_eq (v : Str) : escapeLabel v = v.flatMap escapeChar := by
  unfold escapeLabel replaceChar
  rw [List.flatMap_assoc, List.flatMap_assoc]
  refine List.flatMap_congr fun c _ => ?_
  unfold escapeChar
  by_cases hback : c = '\\'
  · subst hback
    rfl
  by_cases hquote : c = '"'
  · subst hquote
    rfl
  by_cases hline : c = '\n'
  · subst hline
    rfl
  · simp [hback, hquote, hline]

theorem escapeChar_splitsOff : SplitsOff escapeChar := by
  intro a b s t h
  unfold escapeChar at h
  split_ifs at h <;> simp_all <;> exact absurd h.1.symm ‹¬b = '\\'›

/-- **An escaped value and its quote** split off any text. -/
theorem escapeLabel_splitsOff : SplitsOff fun v => escapeLabel v ++ ['"'] := by
  have hquote : ∀ c s t, escapeChar c ++ s ≠ ['"'] ++ t := by
    intro c s t h
    unfold escapeChar at h
    split_ifs at h <;> simp_all
  simp only [escapeLabel_eq]
  exact escapeChar_splitsOff.ended hquote

/-- No escaped value has a newline. -/
theorem escapeLabel_oneLine (v : Str) : '\n' ∉ escapeLabel v := by
  rw [escapeLabel_eq, List.mem_flatMap]
  rintro ⟨c, -, hc⟩
  unfold escapeChar at hc
  split_ifs at hc with _ _ hline <;> simp_all
  exact hline hc.symm

/-! ## Keys

A series is found under its rendered labels, so two label sets share a series only if they say the
same. -/

/-- The text of one label. -/
def labelText (labels : Labels) (n : Str) : Str := n ++ ['=', '"'] ++ escapeLabel (labelAt labels n) ++ ['"']

theorem keyOf_eq (names : List Str) (labels : Labels) :
    keyOf names labels = [','].intercalate (names.map (labelText labels)) := by
  unfold keyOf labelKey
  congr 1
  refine List.ext_getElem (by simp) fun i hi hi' => ?_
  simp only [List.length_map, List.length_zipIdx] at hi hi'
  simp [labelText, List.getD_eq_getElem?_getD, hi]

/-- **The key of a series** says all its label values. -/
theorem keyOf_eq_iff {names : List Str} {labels labels' : Labels} :
    keyOf names labels = keyOf names labels' ↔ ∀ n ∈ names, labelAt labels n = labelAt labels' n := by
  constructor
  · -- the text of the first label splits off, and so on behind it
    have hfirst : ∀ (n : Str) (s t : Str), labelText labels n ++ s = labelText labels' n ++ t →
        labelAt labels n = labelAt labels' n ∧ s = t := by
      intro n s t h
      simp only [labelText, List.append_assoc, List.append_cancel_left_eq] at h
      exact escapeLabel_splitsOff _ _ s t (by simpa only [List.append_assoc] using h)
    have hrest : ∀ names : List Str, (names.map (labelText labels)).flatMap (',' :: ·) =
        (names.map (labelText labels')).flatMap (',' :: ·) →
        ∀ n ∈ names, labelAt labels n = labelAt labels' n := by
      intro names
      induction names with
      | nil => simp
      | cons n names ih =>
        intro h
        simp only [List.map_cons, List.flatMap_cons, List.cons_append, List.cons.injEq, true_and] at h
        obtain ⟨hn, h⟩ := hfirst n _ _ h
        exact List.forall_mem_cons.mpr ⟨hn, ih h⟩
    intro h
    rw [keyOf_eq, keyOf_eq] at h
    cases names with
    | nil => simp
    | cons n names =>
      rw [List.map_cons, List.map_cons, intercalate_cons_eq, intercalate_cons_eq] at h
      obtain ⟨hn, h⟩ := hfirst n _ _ h
      exact List.forall_mem_cons.mpr ⟨hn, hrest names h⟩
  · intro h
    unfold keyOf
    congr 1
    exact List.map_congr_left h

/-! ## One line each

A text of lines can be split again where no part of a line contains a line break. -/

/-- A text of one line. -/
def OneLine (s : Str) : Prop := '\n' ∉ s

instance (s : Str) : Decidable (OneLine s) := inferInstanceAs (Decidable (¬ _))

@[simp] theorem oneLine_append {s t : Str} : OneLine (s ++ t) ↔ OneLine s ∧ OneLine t := by
  simp [OneLine]

theorem keyOf_oneLine {names : List Str} (hnames : ∀ n ∈ names, OneLine n) (labels : Labels) :
    OneLine (keyOf names labels) := by
  rw [keyOf_eq]
  intro h
  rcases mem_of_mem_intercalate h with h | ⟨text, htext, h⟩
  · cases h
  · obtain ⟨n, hn, rfl⟩ := List.mem_map.mp htext
    have htext : OneLine (labelText labels n) := by
      simp only [labelText, oneLine_append]
      exact ⟨⟨⟨hnames n hn, by decide⟩, escapeLabel_oneLine _⟩, by decide⟩
    exact htext h

/-- A family whose name, help and labels are texts of one line, and whose keys are keys of label sets. -/
structure TidyFamily {α : Type} (name help : Str) (labelNames : List Str) (series : JsMap Str α) : Prop where
  name : OneLine name
  help : OneLine help
  labels : ∀ n ∈ labelNames, OneLine n
  keys : series.All fun key _ => ∃ labels, key = keyOf labelNames labels

structure Tidy (r : Registry HistogramEntry) : Prop where
  scalars : ∀ e ∈ r.scalars, TidyFamily e.name e.help e.labelNames e.values
  hists : ∀ e ∈ r.hists, TidyFamily e.name e.help e.labelNames e.counts

/-- What a caller declares is of one line. -/
def Call.Tidy : Call → Prop
  | .counter name help labelNames | .gauge name help labelNames | .histogram name help _ labelNames =>
    OneLine name ∧ OneLine help ∧ ∀ n ∈ labelNames, OneLine n
  | _ => True

section

variable {r r' : Registry HistogramEntry}

/-- Writing the series of a label set. -/
theorem TidyFamily.put {α : Type} {name help : Str} {labelNames : List Str} {series : JsMap Str α}
    (h : TidyFamily name help labelNames series) (labels : Labels) (fresh : α) (next : α → α) :
    TidyFamily name help labelNames
      (series.put maxSeriesPerMetric (keyOf labelNames labels) fresh next).2 := by
  refine ⟨h.name, h.help, h.labels, ?_⟩
  unfold JsMap.put
  split
  · exact h.keys.insert ⟨labels, rfl⟩
  · exact h.keys.set ⟨labels, rfl⟩

theorem tidy_onScalar {handle : Nat} {f : ScalarEntry → Nat × ScalarEntry} (h : Tidy r)
    (hf : ∀ e, TidyFamily e.name e.help e.labelNames e.values →
      TidyFamily (f e).2.name (f e).2.help (f e).2.labelNames (f e).2.values)
    (hr : r.onScalar handle f = some r') : Tidy r' := by
  obtain ⟨e, he, rfl⟩ := Option.map_eq_some_iff.mp hr
  refine ⟨fun x hx => ?_, h.hists⟩
  rcases List.mem_or_eq_of_mem_set hx with hx | rfl
  · exact h.scalars x hx
  · exact hf e (h.scalars e (List.mem_of_getElem? he))

theorem tidy_newScalar {name help : Str} {labelNames : List Str}
    (hc : OneLine name ∧ OneLine help ∧ ∀ n ∈ labelNames, OneLine n) (h : Tidy r) :
    ∀ e ∈ r.scalars ++ [ScalarEntry.new name help labelNames],
      TidyFamily e.name e.help e.labelNames e.values := by
  intro e he
  rcases List.mem_append.mp he with he | he
  · exact h.scalars e he
  · rw [List.mem_singleton.mp he]
    exact ⟨hc.1, hc.2.1, hc.2.2, JsMap.all_empty⟩

/-- **One call** keeps the keys. -/
theorem Tidy.step {c : Call} (h : Tidy r) (hc : c.Tidy) (hr : r.step histograms c = some r') : Tidy r' := by
  have hadd : ∀ (labels : Labels) (delta : Num) (e : ScalarEntry),
      TidyFamily e.name e.help e.labelNames e.values →
      TidyFamily (e.add labels delta).2.name (e.add labels delta).2.help (e.add labels delta).2.labelNames
        (e.add labels delta).2.values := by
    intro labels delta e he
    rw [ScalarEntry.add_eq]
    exact he.put labels _ _
  -- A declaration adds a family with tidy names or none; every other call puts values under keys.
  cases c with
  | counter name help labelNames =>
    rw [Registry.step] at hr
    split at hr
    · obtain rfl := Option.some.inj hr
      exact h
    · obtain rfl := Option.some.inj hr
      exact ⟨tidy_newScalar hc h, h.hists⟩
  | gauge name help labelNames =>
    rw [Registry.step] at hr
    split at hr
    · obtain rfl := Option.some.inj hr
      exact h
    · obtain rfl := Option.some.inj hr
      exact ⟨tidy_newScalar hc h, h.hists⟩
  | histogram name help buckets labelNames =>
    rw [Registry.step] at hr
    split at hr
    · obtain rfl := Option.some.inj hr
      exact h
    · obtain rfl := Option.some.inj hr
      refine ⟨h.scalars, fun e he => ?_⟩
      rcases List.mem_append.mp he with he | he
      · exact h.hists e he
      · rw [List.mem_singleton.mp he]
        exact ⟨hc.1, hc.2.1, hc.2.2, JsMap.all_empty⟩
  | add handle labels delta => exact tidy_onScalar h (hadd labels delta) hr
  | dec handle labels by' => exact tidy_onScalar h (hadd labels by'.neg) hr
  | set handle labels value =>
    refine tidy_onScalar h (fun e he => ?_) hr
    rw [ScalarEntry.set_eq]
    exact he.put labels _ _
  | observe handle value labels =>
    obtain ⟨e, he, rfl⟩ := Option.map_eq_some_iff.mp hr
    refine ⟨h.scalars, fun x hx => ?_⟩
    rcases List.mem_or_eq_of_mem_set hx with hx | rfl
    · exact h.hists x hx
    · have hfamily := (h.hists e (List.mem_of_getElem? he)).put labels
        (bump e.buckets value (List.replicate (e.buckets.length + 1) 0)) (bump e.buckets value)
      have hentry : (histograms.observe e value labels).2.name = e.name ∧
          (histograms.observe e value labels).2.help = e.help ∧
          (histograms.observe e value labels).2.labelNames = e.labelNames := by
        unfold histograms HistogramEntry.observe
        dsimp only
        split <;> exact ⟨rfl, rfl, rfl⟩
      rw [hentry.1, hentry.2.1, hentry.2.2, show (histograms.observe e value labels).2.counts = _ from
        (e.observe_counts value labels).2]
      exact hfamily
  | reset =>
    obtain rfl := Option.some.inj hr
    exact ⟨h.scalars, h.hists⟩

end

/-! ## The text -/

section

variable {numText : Num → Str} {r : Registry HistogramEntry}

theorem familyHeader_oneLine {name help kind : Str} (hname : OneLine name) (hhelp : OneLine help)
    (hkind : OneLine kind) : ∀ line ∈ familyHeader name help kind, OneLine line := by
  simp only [familyHeader, List.forall_mem_cons, oneLine_append]
  exact ⟨⟨⟨⟨by decide, hname⟩, by decide⟩, hhelp⟩, ⟨⟨⟨by decide, hname⟩, by decide⟩, hkind⟩, by simp⟩

theorem TidyFamily.key_oneLine {α : Type} {name help : Str} {labelNames : List Str} {series : JsMap Str α}
    (h : TidyFamily name help labelNames series) {p : Str × α} (hp : p ∈ series.entries) : OneLine p.1 := by
  obtain ⟨v, hv⟩ : ∃ v, series.get? p.1 = some v := by
    cases hget : series.get? p.1 with
    | some v => exact ⟨v, rfl⟩
    | none => exact absurd (List.mem_map_of_mem hp) (JsMap.get?_eq_none_iff.mp hget)
  obtain ⟨labels, hkey⟩ := h.keys p.1 v hv
  rw [hkey]
  exact keyOf_oneLine h.labels labels

variable (hnum : ∀ x, OneLine (numText x))

include hnum

theorem renderScalar_oneLine {kind : Str} (hkind : OneLine kind) {e : ScalarEntry}
    (he : TidyFamily e.name e.help e.labelNames e.values) :
    ∀ line ∈ renderScalar numText kind e, OneLine line := by
  intro line hline
  rcases List.mem_append.mp hline with hline | hline
  · exact familyHeader_oneLine he.name he.help hkind line hline
  · obtain ⟨⟨key, value⟩, hp, rfl⟩ := List.mem_map.mp hline
    have hkey : OneLine key := he.key_oneLine hp
    dsimp only
    split
    · simp only [oneLine_append]
      exact ⟨⟨he.name, by decide⟩, hnum _⟩
    · simp only [oneLine_append]
      exact ⟨⟨⟨⟨he.name, by decide⟩, hkey⟩, by decide⟩, hnum _⟩

theorem bucketLine_oneLine {e : HistogramEntry} (hname : OneLine e.name) {key : Str} (hkey : OneLine key)
    (counts : List Nat) (i : Nat) : OneLine (bucketLine numText e key counts i) := by
  have hle : OneLine (if bound e.buckets i = .posInf then str "+Inf" else numText (bound e.buckets i)) := by
    split
    · decide
    · exact hnum _
  unfold bucketLine
  dsimp only
  generalize (if bound e.buckets i = .posInf then str "+Inf" else numText (bound e.buckets i)) = le at hle
  split
  · simp only [oneLine_append]
    exact ⟨⟨⟨⟨hname, by decide⟩, ⟨by decide, hle⟩, by decide⟩, by decide⟩, hnum _⟩
  · simp only [oneLine_append]
    exact ⟨⟨⟨⟨hname, by decide⟩, ⟨⟨hkey, by decide⟩, hle⟩, by decide⟩, by decide⟩, hnum _⟩

theorem renderHistogram_oneLine {e : HistogramEntry}
    (he : TidyFamily e.name e.help e.labelNames e.counts) :
    ∀ line ∈ renderHistogram numText e, OneLine line := by
  intro line hline
  rcases List.mem_append.mp hline with hline | hline
  · exact familyHeader_oneLine he.name he.help (by decide) line hline
  · obtain ⟨p, hp, hline⟩ := List.mem_flatMap.mp hline
    have hkey := he.key_oneLine hp
    have hbase : OneLine (if p.1 = [] then [] else str "\x7b" ++ p.1 ++ str "\x7d") := by
      split
      · decide
      · simp only [oneLine_append]
        exact ⟨⟨by decide, hkey⟩, by decide⟩
    unfold seriesLines at hline
    dsimp only at hline
    generalize (if p.1 = [] then [] else str "\x7b" ++ p.1 ++ str "\x7d") = base at hbase hline
    rcases List.mem_append.mp hline with hline | hline
    · obtain ⟨i, -, rfl⟩ := List.mem_map.mp hline
      exact bucketLine_oneLine hnum he.name hkey p.2 i
    · rcases List.mem_cons.mp hline with rfl | hline
      · simp only [oneLine_append]
        exact ⟨⟨⟨⟨he.name, by decide⟩, hbase⟩, by decide⟩, hnum _⟩
      · rw [List.mem_singleton.mp hline]
        simp only [oneLine_append]
        exact ⟨⟨⟨⟨he.name, by decide⟩, hbase⟩, by decide⟩, hnum _⟩

theorem lines_oneLine (h : Tidy r) : ∀ line ∈ r.lines numText, OneLine line := by
  have hmem : ∀ {E : Type} {names : JsMap Str Nat} {entries : List E} {e : E},
      e ∈ entriesOf names entries → e ∈ entries := by
    intro E names entries e he
    obtain ⟨p, -, hp⟩ := List.mem_filterMap.mp he
    exact List.mem_of_getElem? hp
  intro line hline
  simp only [Registry.lines, List.mem_append, List.mem_flatMap] at hline
  rcases hline with ((⟨e, he, hline⟩ | ⟨e, he, hline⟩) | ⟨e, he, hline⟩) | hline
  · exact renderScalar_oneLine hnum (by decide) (h.scalars e (hmem he)) line hline
  · exact renderScalar_oneLine hnum (by decide) (h.scalars e (hmem he)) line hline
  · exact renderHistogram_oneLine hnum (h.hists e (hmem he)) line hline
  · unfold droppedLines at hline
    split at hline
    · rcases List.mem_append.mp hline with hline | hline
      · exact familyHeader_oneLine (by decide) (by decide) (by decide) line hline
      · rw [List.mem_singleton.mp hline]
        simp only [oneLine_append]
        exact ⟨⟨by decide, by decide⟩, hnum _⟩
    · cases hline

/-- **The exposition is exact.** In every state that calls reach whose declarations are of one line, whatever
the labels: the lines of the text are those that were written, one for each series; and the key in such a
line is that of one label set, with each of its values. -/
theorem exposition_exact {cs : List Call} (hcs : ∀ c ∈ cs, c.Tidy)
    (h : exec (Registry.step histograms) Registry.new cs = some r) :
    (r.lines numText ≠ [] → pieces '\n' (r.render numText) = r.lines numText) ∧
    (∀ e ∈ r.scalars, ∀ key v, e.values.get? key = some v → ∃ labels, ∀ labels',
      keyOf e.labelNames labels' = key ↔ ∀ n ∈ e.labelNames, labelAt labels' n = labelAt labels n) ∧
    (∀ e ∈ r.hists, ∀ key v, e.counts.get? key = some v → ∃ labels, ∀ labels',
      keyOf e.labelNames labels' = key ↔ ∀ n ∈ e.labelNames, labelAt labels' n = labelAt labels n) := by
  have htidy : Tidy r := by
    have hrun : Run (Registry.step histograms) (fun _ c => c.Tidy) Registry.new r :=
      Run.of_prefixes h fun bs a t hbs _ => hcs a (hbs.subset (by simp))
    exact hrun.invariant ⟨by simp [Registry.new], by simp [Registry.new]⟩
      fun _ _ _ ht hc hstep => ht.step hc hstep
  refine ⟨fun hne => ?_, fun e he key v hkey => ?_, fun e he key v hkey => ?_⟩
  · rw [Registry.render, show ['\n'] = '\n' :: ([] : Str) from rfl, pieces_append, pieces_nil,
      List.append_nil, List.splitOn_intercalate]
    · exact fun line hline hnewline => lines_oneLine hnum htidy line hline hnewline
    · exact hne
  · obtain ⟨labels, rfl⟩ := (htidy.scalars e he).keys key v hkey
    exact ⟨labels, fun labels' => keyOf_eq_iff⟩
  · obtain ⟨labels, rfl⟩ := (htidy.hists e he).keys key v hkey
    exact ⟨labels, fun labels' => keyOf_eq_iff⟩

end

/-- A counter with a label whose value has a quote and a newline. -/
def quotedLabel : List Call :=
  [.counter ['c'] ['h'] [['l']], .add 0 (some [(['l'], ['"', '\n', 'x'])]) (.finite 1)]

theorem exposition_exact_quoted : ∃ r, exec (Registry.step histograms) Registry.new quotedLabel = some r ∧
    (r.lines fun _ => ['1']).length = 3 ∧
    pieces '\n' (r.render fun _ => ['1']) = r.lines fun _ => ['1'] := by
  have hruns : (exec (Registry.step histograms) Registry.new quotedLabel).map
      (fun r => (r.lines fun _ => ['1']).length) = some 3 := rfl
  obtain ⟨r, hr, hlines⟩ := Option.map_eq_some_iff.mp hruns
  have hexact := @exposition_exact (fun _ => ['1']) r (fun _ => by decide) quotedLabel
    (by simp [quotedLabel, Call.Tidy, OneLine]) hr
  exact ⟨r, hr, hlines, hexact.1 (List.ne_nil_of_length_pos (by rw [hlines]; decide))⟩

end MetricsRegistry

end Castrum
