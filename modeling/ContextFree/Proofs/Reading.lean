import ContextFree.GrammarText
import ContextFree.Proofs.Joining
import Mathlib.Data.List.Nodup

/-!
# What reading a grammar comes to

A text is read in two passes. The first takes each rule line by itself, so its faults are the faults
of single lines, and what it hands on is a definition a line, at the number of that line. The second
joins the definitions of one name and looks for uses of names without a definition. Joining keeps
every alternative but only one location for each name, that of its first line. So an undefined use
is always found, and it is found where it is written exactly if it is written on such a first line.

## Main definitions

* `ContextFree.Grammar.Malformed` - some rule line of the text defines nothing.
* `ContextFree.Grammar.LineFaults` - one fault for each such line, in the order of the text.
* `ContextFree.Grammar.ReadsAs` - the definitions of the rule lines, each at its line.
* `ContextFree.Grammar.Gathers` - a grammar holds what definitions give to each name.
* `ContextFree.isUndefined` - the name has no definition in a list.
* `ContextFree.firstPlaced` - a definition moved to the first line of its name.

## Main results

* `ContextFree.Grammar.ofText_by_lines` - what a text is read as, from its lines.
* `ContextFree.undefinedUses_join_perm` - joining loses no undefined use, but moves it.
* `ContextFree.Grammar.undefined_uses_located` - where the undefined uses of a text are reported.
-/

namespace ContextFree

/-! ### Rule lines -/

theorem mem_ruleLines {text line : List Char} {number : Nat} :
    (line, number) ∈ ruleLines text ↔
      ∃ i, (lines text)[i]? = some line ∧ isRuleLine line = true ∧ number = i + 1 := by
  rw [ruleLines, List.mem_filter, List.mem_zipIdx_iff_le_and_getElem?_sub]
  constructor
  · rintro ⟨⟨hle, hline⟩, hrule⟩
    exact ⟨number - 1, hline, hrule, (Nat.sub_add_cancel hle).symm⟩
  · rintro ⟨i, hline, hrule, rfl⟩
    exact ⟨⟨Nat.le_add_left 1 i, hline⟩, hrule⟩

theorem pairwise_ruleLines (text : List Char) :
    (ruleLines text).Pairwise fun a b => a.2 < b.2 := by
  have hnumbers : (((lines text).zipIdx 1).map Prod.snd).Pairwise (· < ·) := by
    rw [List.zipIdx_map_snd]
    exact List.pairwise_lt_range'
  exact (List.pairwise_map.mp hnumbers).filter _

theorem map_fst_ruleLines (text : List Char) :
    (ruleLines text).map Prod.fst = (lines text).filter isRuleLine := by
  have hlines := List.filter_map (p := isRuleLine) (f := Prod.fst) (l := (lines text).zipIdx 1)
  rw [List.zipIdx_map_fst] at hlines
  exact hlines.symm

/-! ### Uses without a definition -/

/-- A definition moved to where its name is first defined. -/
def firstPlaced (ds : List (Located Definition)) (d : Located Definition) : Located Definition :=
  ⟨firstPlace ds d.value.name, d.value⟩

/-- The name has no definition in the list. -/
def isUndefined (ds : List (Located Definition)) (name : String) : Bool :=
  !ds.any fun e => e.value.name == name

theorem isUndefined_join (ds : List (Located Definition)) :
    isUndefined (join ds) = isUndefined ds :=
  funext fun name => congrArg (! ·) (any_join ds name)

theorem isUndefined_map_firstPlaced (ds es : List (Located Definition)) :
    isUndefined (ds.map (firstPlaced es)) = isUndefined ds := by
  funext name
  rw [isUndefined, List.any_map]
  rfl

theorem isUndefined_eq_false {ds : List (Located Definition)} {name : String} :
    isUndefined ds name = false ↔ ∃ d ∈ ds, d.value.name = name := by
  simp [isUndefined]

theorem mem_undefinedUses {ds : List (Located Definition)} {l : Located Fault} :
    l ∈ undefinedUses ds ↔ ∃ d ∈ ds, ∃ used ∈ d.value.uses,
      isUndefined ds used = true ∧ l = ⟨d.location, .undefinedNonterminal used⟩ := by
  simp only [undefinedUses, List.mem_flatMap, List.mem_map, List.mem_filter]
  constructor
  · rintro ⟨d, hd, used, ⟨hused, hundefined⟩, rfl⟩
    exact ⟨d, hd, used, hused, hundefined, rfl⟩
  · rintro ⟨d, hd, used, hused, hundefined, rfl⟩
    exact ⟨d, hd, used, ⟨hused, hundefined⟩, rfl⟩

theorem undefinedUses_eq_nil_iff {ds : List (Located Definition)} :
    undefinedUses ds = [] ↔ ∀ d ∈ ds, ∀ used ∈ d.value.uses, ∃ e ∈ ds, e.value.name = used := by
  rw [List.eq_nil_iff_forall_not_mem]
  constructor
  · intro hnone d hd used hused
    refine isUndefined_eq_false.mp (Bool.eq_false_iff.mpr fun hundefined => ?_)
    exact hnone _ (mem_undefinedUses.mpr ⟨d, hd, used, hused, hundefined, rfl⟩)
  · intro hdefined l hl
    obtain ⟨d, hd, used, hused, hundefined, -⟩ := mem_undefinedUses.mp hl
    have hfalse := isUndefined_eq_false.mpr (hdefined d hd used hused)
    exact absurd hundefined (Bool.eq_false_iff.mp hfalse)

/-- The undefined uses, alternative by alternative. -/
theorem undefinedUses_eq_flatMap (ds : List (Located Definition)) :
    undefinedUses ds = ds.flatMap fun d => d.value.alternatives.flatMap fun a =>
      ((a.filterMap Symbol.name?).filter (isUndefined ds)).map fun name =>
        ⟨d.location, .undefinedNonterminal name⟩ := by
  refine List.flatMap_congr fun d _ => ?_
  rw [Definition.uses, List.filter_flatMap, List.map_flatMap]
  rfl

/-- **Joining loses no undefined use, but moves it** to the first line of the name that uses it. -/
theorem undefinedUses_join_perm (ds : List (Located Definition)) :
    (undefinedUses (join ds)).Perm (undefinedUses (ds.map (firstPlaced ds))) := by
  let make (name : String) (a : Alternative) : List (Located Fault) :=
    ((a.filterMap Symbol.name?).filter (isUndefined ds)).map fun used =>
      ⟨firstPlace ds name, .undefinedNonterminal used⟩
  have hjoin : undefinedUses (join ds) =
      (join ds).flatMap fun d => d.value.alternatives.flatMap (make d.value.name) := by
    rw [undefinedUses_eq_flatMap, isUndefined_join]
    refine List.flatMap_congr fun d hd => ?_
    rw [location_of_mem_join hd]
  have hplaced : undefinedUses (ds.map (firstPlaced ds)) =
      ds.flatMap fun d => d.value.alternatives.flatMap (make d.value.name) := by
    rw [undefinedUses_eq_flatMap, isUndefined_map_firstPlaced, List.flatMap_map]
    rfl
  rw [hjoin, hplaced]
  exact flatMap_join_perm ds make

theorem undefinedUses_join_eq_nil_iff {ds : List (Located Definition)} :
    undefinedUses (join ds) = [] ↔ undefinedUses ds = [] := by
  have hplaced : undefinedUses (ds.map (firstPlaced ds)) = [] ↔ undefinedUses ds = [] := by
    simp [undefinedUses_eq_nil_iff, firstPlaced]
  rw [← hplaced]
  exact ⟨fun h => List.nil_perm.mp (h ▸ undefinedUses_join_perm ds),
    fun h => List.perm_nil.mp (h ▸ undefinedUses_join_perm ds)⟩

theorem firstPlace_mem {ds : List (Located Definition)} {d : Located Definition} (h : d ∈ ds) :
    ∃ e ∈ ds, e.value.name = d.value.name ∧ firstPlace ds d.value.name = e.location := by
  cases hfind : ds.find? fun e => e.value.name == d.value.name with
  | none => exact absurd (List.find?_eq_none.mp hfind d h) (by simp)
  | some e =>
    refine ⟨e, List.mem_of_find?_eq_some hfind, by simpa using List.find?_some hfind, ?_⟩
    rw [firstPlace, hfind]

/-- If no two definitions are in one place, the joined list has its undefined uses where they are
written exactly if they are written on first lines. -/
theorem undefinedUses_join_perm_iff {ds : List (Located Definition)}
    (hdistinct : (ds.map Located.location).Nodup) :
    (undefinedUses (join ds)).Perm (undefinedUses ds) ↔
      ∀ d ∈ ds, (∃ used ∈ d.value.uses, isUndefined ds used = true) →
        d.location = firstPlace ds d.value.name := by
  constructor
  · rintro hperm d hd ⟨used, hused, hundefined⟩
    have hmem : ⟨d.location, .undefinedNonterminal used⟩ ∈ undefinedUses (join ds) :=
      hperm.mem_iff.mpr (mem_undefinedUses.mpr ⟨d, hd, used, hused, hundefined, rfl⟩)
    -- a use reported at the line of `d` comes from a name whose first line that is
    obtain ⟨f, hf, _, -, -, heq⟩ := mem_undefinedUses.mp
      ((undefinedUses_join_perm ds).mem_iff.mp hmem)
    obtain ⟨e, he, rfl⟩ := List.mem_map.mp hf
    obtain ⟨first, hfirst, hname, hplace⟩ := firstPlace_mem he
    have hlocation : d.location = firstPlace ds e.value.name :=
      (Located.mk.inj heq).1
    have hsame : d = first :=
      List.inj_on_of_nodup_map hdistinct hd hfirst (hlocation.trans hplace)
    rw [hsame, hname, hplace]
  · intro hplaced
    have hsame : undefinedUses (ds.map (firstPlaced ds)) = undefinedUses ds := by
      rw [undefinedUses_eq_flatMap, undefinedUses_eq_flatMap, isUndefined_map_firstPlaced,
        List.flatMap_map]
      refine List.flatMap_congr fun d hd => List.flatMap_congr fun a ha => ?_
      refine List.map_congr_left fun used hused => ?_
      obtain ⟨hmem, hundefined⟩ := List.mem_filter.mp hused
      have huse : used ∈ d.value.uses := List.mem_flatMap.mpr ⟨a, ha, hmem⟩
      rw [firstPlaced, hplaced d hd ⟨used, huse, hundefined⟩]
    exact hsame ▸ undefinedUses_join_perm ds

/-! ### What is said of a text -/

namespace Grammar

variable {origin : Location} {text : String} {ds : List (Located Definition)}

/-- Some rule line of the text defines nothing. -/
def Malformed (text : String) : Prop :=
  ∃ line ∈ lines text.toList, isRuleLine line = true ∧
    ∃ fault, Definition.ofLine line = .error fault

instance (text : String) : Decidable (Malformed text) :=
  decidable_of_iff (∃ line ∈ lines text.toList,
      isRuleLine line = true ∧ (Definition.ofLine line).isOk = false) <| by
    refine exists_congr fun line => and_congr_right fun _ => and_congr_right fun _ => ?_
    cases Definition.ofLine line <;> simp [Except.isOk, Except.toBool]

/-- The faults are those of the rule lines that define nothing, one for each, in the order of the
text, and each is located at its line. -/
structure LineFaults (origin : Location) (text : String) (faults : List (Located Fault)) :
    Prop where
  /-- The line numbers grow. -/
  in_order : faults.Pairwise fun a b => a.location.line < b.location.line
  /-- A fault is that of a rule line, at the number of the line among all lines of the text. -/
  mem_iff : ∀ l, l ∈ faults ↔ ∃ i line, (lines text.toList)[i]? = some line ∧
    isRuleLine line = true ∧ Definition.ofLine line = .error l.value ∧
    l.location = ⟨origin.file, i + 1⟩

/-- The definitions are those of the rule lines that define something, one for each, in the order of
the text, and each is located at its line. -/
structure ReadsAs (origin : Location) (text : String) (ds : List (Located Definition)) : Prop where
  /-- The line numbers grow. -/
  in_order : ds.Pairwise fun a b => a.location.line < b.location.line
  /-- A definition is that of a rule line, at the number of the line among all lines of the text. -/
  mem_iff : ∀ d, d ∈ ds ↔ ∃ i line, (lines text.toList)[i]? = some line ∧
    isRuleLine line = true ∧ Definition.ofLine line = .ok d.value ∧
    d.location = ⟨origin.file, i + 1⟩

/-- The grammar holds what a list of definitions gives to each name. Of an empty list it holds
nothing, and its start is the empty text. -/
structure Gathers (g : Grammar) (ds : List Definition) : Prop where
  /-- The grammar starts with the first name. -/
  start_eq : g.start = (ds.head?.map Definition.name).getD ""
  /-- A name comes once, -/
  nodup : (g.definitions.map Definition.name).Nodup
  /-- in the order of first appearance, -/
  names_eq : g.definitions.map Definition.name = (ds.map Definition.name).eraseDups
  /-- with all the alternatives that it is given, in order. -/
  alternatives_eq : ∀ d ∈ g.definitions, d.alternatives = alternativesFor ds d.name
  /-- Whatever is used is defined. -/
  closed : ∀ d ∈ g.definitions, ∀ used ∈ d.uses, g.defines used = true

/-! ### Line by line -/

theorem mem_readLines {text : List Char} {location : Location}
    {value : Except Fault Definition} :
    ⟨location, value⟩ ∈ readLines origin text ↔ ∃ i line, (lines text)[i]? = some line ∧
      isRuleLine line = true ∧ Definition.ofLine line = value ∧
      location = ⟨origin.file, i + 1⟩ := by
  constructor
  · intro hmem
    obtain ⟨⟨line, number⟩, hentry, heq⟩ := List.mem_map.mp hmem
    obtain ⟨hlocation, hvalue⟩ := Located.mk.inj heq
    obtain ⟨i, hline, hrule, rfl⟩ := mem_ruleLines.mp hentry
    exact ⟨i, line, hline, hrule, hvalue, hlocation.symm⟩
  · rintro ⟨i, line, hline, hrule, rfl, rfl⟩
    exact List.mem_map.mpr ⟨(line, i + 1), mem_ruleLines.mpr ⟨i, hline, hrule, rfl⟩, rfl⟩

theorem pairwise_locations_readLines (origin : Location) (text : List Char) :
    ((readLines origin text).map Located.location).Pairwise fun a b => a.line < b.line := by
  rw [readLines, List.map_map]
  exact List.pairwise_map.mpr (pairwise_ruleLines text)

theorem values_readLines (origin : Location) (text : List Char) :
    (readLines origin text).map Located.value =
      ((lines text).filter isRuleLine).map Definition.ofLine := by
  rw [← map_fst_ruleLines, readLines, List.map_map, List.map_map]
  rfl

theorem mem_faultsOf {readings : List (Located (Except Fault Definition))} {l : Located Fault} :
    l ∈ faultsOf readings ↔ ⟨l.location, .error l.value⟩ ∈ readings := by
  rw [faultsOf, List.mem_filterMap]
  constructor
  · rintro ⟨⟨location, value⟩, hmem, hvalue⟩
    cases value with
    | ok d => simp at hvalue
    | error fault =>
      obtain rfl : (⟨location, fault⟩ : Located Fault) = l := by simpa using hvalue
      exact hmem
  · exact fun hmem => ⟨_, hmem, rfl⟩

theorem locations_faultsOf_sublist (readings : List (Located (Except Fault Definition))) :
    ((faultsOf readings).map Located.location).Sublist (readings.map Located.location) := by
  induction readings with
  | nil => exact List.Sublist.refl []
  | cons reading rest ih =>
    obtain ⟨location, value⟩ := reading
    cases value with
    | error fault => exact ih.cons_cons location
    | ok d => exact ih.cons location

theorem lineFaults_faultsOf (origin : Location) (text : String) :
    LineFaults origin text (faultsOf (readLines origin text.toList)) where
  in_order := by
    have hlines := (pairwise_locations_readLines origin text.toList).sublist
      (locations_faultsOf_sublist _)
    rw [List.pairwise_map] at hlines
    exact hlines
  mem_iff l := by rw [mem_faultsOf, mem_readLines]

theorem malformed_iff (origin : Location) :
    Malformed text ↔ faultsOf (readLines origin text.toList) ≠ [] := by
  have hfaults := (lineFaults_faultsOf origin text).mem_iff
  constructor
  · rintro ⟨line, hline, hrule, fault, hfault⟩
    obtain ⟨i, hi⟩ := List.mem_iff_getElem?.mp hline
    exact List.ne_nil_of_mem ((hfaults ⟨⟨origin.file, i + 1⟩, fault⟩).mpr
      ⟨i, line, hi, hrule, hfault, rfl⟩)
  · intro hne
    obtain ⟨l, hl⟩ := List.exists_mem_of_ne_nil _ hne
    obtain ⟨i, line, hi, hrule, hfault, -⟩ := (hfaults l).mp hl
    exact ⟨line, List.mem_of_getElem? hi, hrule, l.value, hfault⟩

theorem eq_definitionsOf {readings : List (Located (Except Fault Definition))}
    (h : faultsOf readings = []) :
    readings = (definitionsOf readings).map fun d => ⟨d.location, .ok d.value⟩ := by
  induction readings with
  | nil => rfl
  | cons reading rest ih =>
    obtain ⟨location, value⟩ := reading
    cases value with
    | error fault => simp [faultsOf] at h
    | ok d => exact congrArg (_ :: ·) (ih (by simpa [faultsOf] using h))

theorem readsAs_of_readLines_eq
    (h : readLines origin text.toList = ds.map fun d => ⟨d.location, .ok d.value⟩) :
    ReadsAs origin text ds where
  in_order := by
    have hlines := pairwise_locations_readLines origin text.toList
    rw [h, List.map_map, List.pairwise_map] at hlines
    exact hlines
  mem_iff d := by
    have hinj : Function.Injective fun d : Located Definition =>
        (⟨d.location, .ok d.value⟩ : Located (Except Fault Definition)) := by
      rintro ⟨l, v⟩ ⟨l', v'⟩ heq
      simpa using heq
    rw [← mem_readLines, h]
    exact (List.mem_map_of_injective hinj).symm

theorem ReadsAs.nodup_locations (h : ReadsAs origin text ds) :
    (ds.map Located.location).Nodup := by
  refine List.pairwise_map.mpr (h.in_order.imp fun {a b} hlt heq => ?_)
  exact Nat.lt_irrefl _ (heq ▸ hlt)

/-! ### The text as a whole -/

theorem ofText_of_malformed (h : Malformed text) :
    ofText origin text = .error (faultsOf (readLines origin text.toList)) := by
  have hne := (malformed_iff origin).mp h
  rw [ofText]
  split
  · next hnil => exact absurd hnil hne
  · rfl

/-- A text whose rule lines all define something is read as its definitions are joined. -/
theorem exists_readsAs (origin : Location) (h : ¬ Malformed text) :
    ∃ ds, ReadsAs origin text ds ∧
      ((lines text.toList).filter isRuleLine).map Definition.ofLine =
        (ds.map Located.value).map .ok ∧
      ofText origin text = ofDefinitions ds := by
  have hnil : faultsOf (readLines origin text.toList) = [] :=
    not_not.mp fun hne => h ((malformed_iff origin).mpr hne)
  have hread := eq_definitionsOf hnil
  refine ⟨_, readsAs_of_readLines_eq hread, ?_, by simp [ofText, hnil]⟩
  rw [← values_readLines origin, List.map_map]
  exact (congrArg (List.map Located.value) hread).trans List.map_map

theorem ofDefinitions_eq_ok {g : Grammar} :
    ofDefinitions ds = .ok g ↔ undefinedUses ds = [] ∧
      g = ⟨(ds.head?.map fun d => d.value.name).getD "", (join ds).map Located.value⟩ := by
  rw [← undefinedUses_join_eq_nil_iff, ofDefinitions]
  cases undefinedUses (join ds) <;> simp [eq_comm]

theorem ofDefinitions_eq_error {faults : List (Located Fault)} :
    ofDefinitions ds = .error faults ↔
      undefinedUses ds ≠ [] ∧ faults = undefinedUses (join ds) := by
  rw [Ne, ← undefinedUses_join_eq_nil_iff, ofDefinitions]
  cases undefinedUses (join ds) <;> simp [eq_comm]

theorem gathers_of_ofDefinitions {g : Grammar} (h : ofDefinitions ds = .ok g) :
    g.Gathers (ds.map Located.value) := by
  obtain ⟨hnone, rfl⟩ := ofDefinitions_eq_ok.mp h
  have hnames : ((join ds).map Located.value).map Definition.name =
      (join ds).map fun d => d.value.name := List.map_map
  have hdefined := undefinedUses_eq_nil_iff.mp (undefinedUses_join_eq_nil_iff.mpr hnone)
  exact {
    start_eq := by
      rw [List.head?_map, Option.map_map]
      rfl
    nodup := hnames ▸ nodup_names_join ds
    names_eq := by
      rw [hnames, names_join, List.map_map]
      rfl
    alternatives_eq := by
      intro d hd
      obtain ⟨e, he, rfl⟩ := List.mem_map.mp hd
      exact alternatives_of_mem_join he
    closed := by
      intro d hd used hused
      obtain ⟨e, he, rfl⟩ := List.mem_map.mp hd
      obtain ⟨f, hf, hname⟩ := hdefined e he used hused
      exact defines_iff.mpr ⟨f.value, List.mem_map_of_mem hf, hname⟩ }

/-- **What a text is read as.** If some rule line defines nothing, the faults of all such lines are
reported. Otherwise the text is read as a grammar if and only if whatever its lines use is defined
by one of them, and that grammar holds what the lines give to each name. -/
theorem ofText_by_lines (origin : Location) (text : String) :
    (Malformed text →
      ∃ faults, ofText origin text = .error faults ∧ LineFaults origin text faults) ∧
    (¬ Malformed text → ∃ ds : List Definition,
      ((lines text.toList).filter isRuleLine).map Definition.ofLine = ds.map .ok ∧
      ((∃ g, ofText origin text = .ok g) ↔ ∀ d ∈ ds, ∀ used ∈ d.uses, ∃ e ∈ ds, e.name = used) ∧
      ∀ g, ofText origin text = .ok g → g.Gathers ds) := by
  constructor
  · exact fun h => ⟨_, ofText_of_malformed h, lineFaults_faultsOf origin text⟩
  · intro h
    obtain ⟨ds, -, hvalues, htext⟩ := exists_readsAs origin h
    refine ⟨ds.map Located.value, hvalues, ?_, fun g hg => ?_⟩
    · have hclosed : (∀ d ∈ ds.map Located.value, ∀ used ∈ d.uses,
          ∃ e ∈ ds.map Located.value, e.name = used) ↔ undefinedUses ds = [] := by
        simp [undefinedUses_eq_nil_iff]
      rw [hclosed, htext]
      exact ⟨fun ⟨g, hg⟩ => (ofDefinitions_eq_ok.mp hg).1,
        fun hnone => ⟨_, ofDefinitions_eq_ok.mpr ⟨hnone, rfl⟩⟩⟩
    · exact gathers_of_ofDefinitions (htext ▸ hg)

theorem misread_and_read_lines :
    (Malformed "; two faults\nS = T\n= S\n\n\"y\" = S" ∧
      ∃ faults, ofText ⟨"g.bnf", 0⟩ "; two faults\nS = T\n= S\n\n\"y\" = S" = .error faults ∧
        LineFaults ⟨"g.bnf", 0⟩ "; two faults\nS = T\n= S\n\n\"y\" = S" faults) ∧
    (¬ Malformed "E = E \"+\" T\n\nT = \"a\"\nE = T\n" ∧
      ∃ ds : List Definition,
        ((lines "E = E \"+\" T\n\nT = \"a\"\nE = T\n".toList).filter isRuleLine).map
            Definition.ofLine = ds.map .ok ∧
        ((∃ g, ofText ⟨"g.bnf", 0⟩ "E = E \"+\" T\n\nT = \"a\"\nE = T\n" = .ok g) ↔
          ∀ d ∈ ds, ∀ used ∈ d.uses, ∃ e ∈ ds, e.name = used) ∧
        ∀ g, ofText ⟨"g.bnf", 0⟩ "E = E \"+\" T\n\nT = \"a\"\nE = T\n" = .ok g →
          g.Gathers ds) := by
  have hbad : Malformed "; two faults\nS = T\n= S\n\n\"y\" = S" := by decide +kernel
  have hgood : ¬ Malformed "E = E \"+\" T\n\nT = \"a\"\nE = T\n" := by decide +kernel
  exact ⟨⟨hbad, (ofText_by_lines _ _).1 hbad⟩, hgood, (ofText_by_lines _ _).2 hgood⟩

/-- **Where the undefined uses of a text are reported.** Each is reported once, at the first line of
the name whose alternatives hold it. So they are reported where they are written exactly if none is
written on a later line of a name. -/
theorem undefined_uses_located (origin : Location) (text : String) (h : ¬ Malformed text) :
    ∃ ds, ReadsAs origin text ds ∧
      (undefinedUses ds = [] → ∃ g, ofText origin text = .ok g) ∧
      (undefinedUses ds ≠ [] → ∃ faults, ofText origin text = .error faults ∧
        faults.Perm (undefinedUses (ds.map (firstPlaced ds))) ∧
        (faults.Perm (undefinedUses ds) ↔
          ∀ d ∈ ds, (∃ used ∈ d.value.uses, isUndefined ds used = true) →
            d.location = firstPlace ds d.value.name)) := by
  obtain ⟨ds, hreads, -, htext⟩ := exists_readsAs origin h
  refine ⟨ds, hreads, fun hnone => ?_, fun hsome => ?_⟩
  · exact ⟨_, htext.trans (ofDefinitions_eq_ok.mpr ⟨hnone, rfl⟩)⟩
  · exact ⟨_, htext.trans (ofDefinitions_eq_error.mpr ⟨hsome, rfl⟩), undefinedUses_join_perm ds,
      undefinedUses_join_perm_iff hreads.nodup_locations⟩

theorem use_reported_at_first_line :
    ¬ Malformed "S = A\nS = \"x\"\nT = B T\n" ∧
      ∃ ds, ReadsAs ⟨"", 0⟩ "S = A\nS = \"x\"\nT = B T\n" ds ∧
        (undefinedUses ds = [] → ∃ g, ofText ⟨"", 0⟩ "S = A\nS = \"x\"\nT = B T\n" = .ok g) ∧
        (undefinedUses ds ≠ [] → ∃ faults,
          ofText ⟨"", 0⟩ "S = A\nS = \"x\"\nT = B T\n" = .error faults ∧
          faults.Perm (undefinedUses (ds.map (firstPlaced ds))) ∧
          (faults.Perm (undefinedUses ds) ↔
            ∀ d ∈ ds, (∃ used ∈ d.value.uses, isUndefined ds used = true) →
              d.location = firstPlace ds d.value.name)) := by
  have hgood : ¬ Malformed "S = A\nS = \"x\"\nT = B T\n" := by decide +kernel
  exact ⟨hgood, undefined_uses_located _ _ hgood⟩

/-- A use on the second line of a name is reported on the first. -/
theorem later_use_misplaced :
    ¬ Malformed "S = \"x\"\nS = A\n" ∧
      ∃ ds faults, ReadsAs ⟨"", 0⟩ "S = \"x\"\nS = A\n" ds ∧
        ofText ⟨"", 0⟩ "S = \"x\"\nS = A\n" = .error faults ∧ ¬ faults.Perm (undefinedUses ds) := by
  refine ⟨by decide +kernel,
    [⟨⟨"", 1⟩, ⟨"S", [[.terminal "x"]]⟩⟩, ⟨⟨"", 2⟩, ⟨"S", [[.nonterminal "A"]]⟩⟩],
    [⟨⟨"", 1⟩, .undefinedNonterminal "A"⟩], ?_, ?_, ?_⟩
  · exact readsAs_of_readLines_eq (by decide +kernel)
  · decide +kernel
  · decide +kernel

end Grammar

end ContextFree
