import ContextFree.Sample

/-!
# What can be chosen

A choice among some options always comes to one of them, whatever the words are. The other way
round, every option is chosen by some word: the lowest word whose product with the number of options
has the place of the option as its high half. The low half of that product is less than the number
of options, and so the word is accepted.

A choice waits for a word that is accepted and is made by the first that comes. If none comes it does
not end, and nothing is known of it but that it is in range. A supply serves choices among so many
options if a word that is accepted always comes again, however many were taken before.

Words that a supply begins with are taken one after the other, so what takes the words of one list
and then those of another takes the words of both lists in a row.

## Main definitions

* `ContextFree.Words.after` - the supply after some words.
* `ContextFree.Words.Comes` - a word is accepted some time.
* `ContextFree.Words.Serves` - again and again a word is accepted.
* `ContextFree.Words.Begins` - the next words of a supply.

## Main results

* `ContextFree.Words.exists_draw` - a choice is made by the first word that is accepted.
* `ContextFree.Words.exists_pick` - a choice comes to one of the options.
* `ContextFree.Words.exists_word_pick` - every option is chosen by some word.
* `ContextFree.exists_lowest` - the lowest option.
-/

namespace ContextFree

namespace Words

variable {α : Type} {k : Nat} {w : Words} {options : List α}

/-! ### The supply after some words -/

/-- The supply after so many words. -/
def after (w : Words) (count : Nat) : Words := { w with taken := w.taken + count }

theorem after_after (w : Words) (count more : Nat) :
    (w.after count).after more = w.after (count + more) :=
  congrArg (Words.mk w.word) (Nat.add_assoc w.taken count more)

theorem after_tail (w : Words) (count : Nat) : w.tail.after count = w.after (count + 1) := by
  rw [Nat.add_comm]
  exact after_after w 1 count

/-! ### Waiting for a word -/

/-- Some time there is a word that is accepted for a choice among `k`. -/
def Comes (w : Words) (k : Nat) : Prop := ∃ count, accepts k (w.after count).head = true

/-- However many words are taken, there is a further one that is accepted for a choice among `k`. -/
def Serves (w : Words) (k : Nat) : Prop := ∀ count, (w.after count).Comes k

theorem Serves.comes (h : w.Serves k) : w.Comes k := h 0

theorem Serves.after (h : w.Serves k) (count : Nat) : (w.after count).Serves k := by
  intro more
  rw [after_after]
  exact h (count + more)

theorem comes_of_accepts (h : accepts k w.head = true) : w.Comes k := ⟨0, h⟩

theorem Comes.of_tail (h : w.tail.Comes k) : w.Comes k := by
  obtain ⟨count, haccepts⟩ := h
  exact ⟨count + 1, after_tail w count ▸ haccepts⟩

/-- The supply of the words of a list, and zeros after them, serves choices among any number. -/
theorem serves_ofList (words : List UInt32) (k : Nat) : (ofList words).Serves k := by
  intro count
  refine ⟨words.length, ?_⟩
  have hzero : ((ofList words).after (count + words.length)).head = 0 := by
    simp [ofList, Words.after, head]
  rw [after_after, hzero]
  simp [accepts]

/-- The wait for a word that comes ends with the first that is accepted. -/
theorem exists_await (h : w.Comes k) : ∃ count, (∀ i < count, accepts k (w.after i).head = false) ∧
    accepts k (w.after count).head = true ∧ await k w = some (w.after count) := by
  obtain ⟨count, haccepts⟩ := h
  induction count generalizing w with
  | zero => exact ⟨0, nofun, haccepts, await_of_accepts haccepts⟩
  | succ count ih =>
    cases hfirst : accepts k w.head with
    | true => exact ⟨0, nofun, hfirst, await_of_accepts hfirst⟩
    | false =>
      obtain ⟨skipped, hbefore, haccepts, hawait⟩ := ih ((after_tail w count).symm ▸ haccepts)
      rw [after_tail] at haccepts hawait
      refine ⟨skipped + 1, fun i hi => ?_, haccepts, (await_of_not_accepts hfirst).trans hawait⟩
      cases i with
      | zero => exact hfirst
      | succ i => exact after_tail w i ▸ hbefore i (Nat.lt_of_succ_lt_succ hi)

/-- What is drawn is what the word stands for that the wait ends with. -/
theorem draw_of_await {w' : Words} (h : await k w = some w') :
    w.draw k = (choice k w'.head, w'.tail) := by
  cases hfirst : accepts k w.head with
  | true =>
    obtain rfl := Option.some.inj ((await_of_accepts hfirst).symm.trans h)
    exact draw_of_accepts hfirst
  | false =>
    rw [await_of_not_accepts hfirst] at h
    rw [draw, if_neg (ne_true_of_eq_false hfirst), h]
    rfl

/-- **A choice is made by the first word that is accepted**, if one comes. -/
theorem exists_draw (h : w.Comes k) : ∃ count, (∀ i < count, accepts k (w.after i).head = false) ∧
    accepts k (w.after count).head = true ∧
    w.draw k = (choice k (w.after count).head, w.after (count + 1)) := by
  obtain ⟨count, hbefore, haccepts, hawait⟩ := exists_await h
  exact ⟨count, hbefore, haccepts, draw_of_await hawait⟩

/-- A word that is rejected makes no difference, if one comes that is accepted. -/
theorem draw_tail (hrejected : accepts k w.head = false) (hcomes : w.Comes k) :
    w.tail.draw k = w.draw k := by
  obtain ⟨count, -, -, hawait⟩ := exists_await hcomes
  rw [draw_of_await hawait, draw_of_await ((await_of_not_accepts hrejected).symm.trans hawait)]

/-! ### What a choice comes to -/

theorem fst_draw_lt (hk : 0 < k) (w : Words) : (w.draw k).1 < k := choice_lt hk _

theorem mem_of_pick {x : α} (h : (w.pick options).1 = some x) : x ∈ options := by
  rw [pick] at h
  split at h
  · exact absurd h.symm (Option.some_ne_none x)
  · exact List.mem_of_getElem? h

/-- **A choice comes to one of the options**, if there are any. -/
theorem exists_pick (hne : options ≠ []) (w : Words) :
    ∃ x ∈ options, (w.pick options).1 = some x := by
  have hlt : (w.draw options.length).1 < options.length :=
    fst_draw_lt (List.length_pos_iff.mpr hne) w
  refine ⟨options[(w.draw options.length).1], List.getElem_mem hlt, ?_⟩
  rw [pick, if_neg (by simpa using hne)]
  exact List.getElem?_eq_getElem hlt

/-- A word that is rejected makes no difference to what is picked. -/
theorem pick_tail (hrejected : accepts options.length w.head = false)
    (hcomes : w.Comes options.length) : w.tail.pick options = w.pick options := by
  have hne : ¬ options.isEmpty = true := by
    intro hempty
    rw [List.isEmpty_iff.mp hempty] at hrejected
    simp [accepts] at hrejected
  rw [pick, pick, if_neg hne, if_neg hne, draw_tail hrejected hcomes]

/-- Where the word in front is accepted, no further word is taken. -/
theorem snd_pick_of_accepts (h : accepts options.length w.head = true) :
    (w.pick options).2 = w ∨ (w.pick options).2 = w.tail := by
  rw [pick]
  split
  · exact Or.inl rfl
  · rw [draw_of_accepts h]
    exact Or.inr rfl

/-! ### Words for a choice -/

/-- Low halves below the number of options are accepted. -/
theorem accepts_of_lt {word : UInt32} (h : word.toNat * k % UInt32.size < k) :
    accepts k word = true := by
  have hshift : k ≤ k <<< (31 - k.log2) := by
    rw [Nat.shiftLeft_eq]
    exact Nat.le_mul_of_pos_right k (Nat.two_pow_pos _)
  rw [accepts, decide_eq_true_iff, zone]
  omega

/-- Every number below a bound is drawn by some word. -/
theorem exists_word {i : Nat} (hi : i < k) (hk : k < UInt32.size) :
    ∃ word : UInt32, accepts k word = true ∧ choice k word = i := by
  have hpos : 0 < k := Nat.lt_of_le_of_lt (Nat.zero_le i) hi
  -- the lowest number whose product with `k` reaches `i` words
  obtain ⟨v, hv⟩ : ∃ v, v = (i * UInt32.size + (k - 1)) / k := ⟨_, rfl⟩
  have hdivision : k * v + (i * UInt32.size + (k - 1)) % k = i * UInt32.size + (k - 1) :=
    hv ▸ Nat.div_add_mod _ _
  have hrest : (i * UInt32.size + (k - 1)) % k < k := Nat.mod_lt _ hpos
  obtain ⟨low, hlow, hproduct⟩ : ∃ low < k, v * k = i * UInt32.size + low :=
    ⟨k - 1 - (i * UInt32.size + (k - 1)) % k, by omega, by rw [Nat.mul_comm]; omega⟩
  have hsize : v < UInt32.size := by
    refine Nat.lt_of_mul_lt_mul_right (a := k) ?_
    have hle : i * UInt32.size + UInt32.size ≤ k * UInt32.size :=
      Nat.succ_mul i UInt32.size ▸ Nat.mul_le_mul_right _ hi
    rw [hproduct, Nat.mul_comm UInt32.size k]
    omega
  have htoNat : (UInt32.ofNat v).toNat = v := UInt32.toNat_ofNat_of_lt' hsize
  refine ⟨UInt32.ofNat v, accepts_of_lt ?_, ?_⟩
  · rw [htoNat, hproduct, Nat.mul_add_mod_self_right, Nat.mod_eq_of_lt (Nat.lt_trans hlow hk)]
    exact hlow
  · rw [choice, htoNat, hproduct, Nat.add_comm, Nat.add_mul_div_right _ _ (by decide),
      Nat.div_eq_of_lt (Nat.lt_trans hlow hk), Nat.zero_add]

/-- **Every option is chosen by some word.** -/
theorem exists_word_pick {x : α} (hx : x ∈ options) (hk : options.length < UInt32.size) :
    ∃ word : UInt32, ∀ w : Words, w.head = word → w.pick options = (some x, w.tail) := by
  obtain ⟨i, hi, rfl⟩ := List.mem_iff_getElem.mp hx
  obtain ⟨word, haccepts, hchoice⟩ := exists_word hi hk
  refine ⟨word, fun w hw => ?_⟩
  have hdraw : w.draw options.length = (i, w.tail) := by
    rw [draw_of_accepts (hw.symm ▸ haccepts), hw, hchoice]
  rw [pick, if_neg (by simpa using List.ne_nil_of_mem hx), hdraw]
  exact congrArg (·, w.tail) (List.getElem?_eq_getElem hi)

/-! ### The next words of a supply -/

/-- The next words of the supply are those of the list. -/
def Begins (w : Words) : List UInt32 → Prop
  | [] => True
  | word :: rest => w.head = word ∧ w.tail.Begins rest

theorem begins_append {first second : List UInt32} :
    w.Begins (first ++ second) ↔ w.Begins first ∧ (w.after first.length).Begins second := by
  induction first generalizing w with
  | nil => exact ⟨fun h => ⟨trivial, h⟩, And.right⟩
  | cons word rest ih =>
    rw [List.cons_append, Begins, Begins, ih, after_tail, List.length_cons, and_assoc]

theorem begins_of_getD {words : List UInt32}
    (h : ∀ i < words.length, w.word (w.taken + i) = words.getD i 0) : w.Begins words := by
  induction words generalizing w with
  | nil => trivial
  | cons word rest ih =>
    refine ⟨h 0 (Nat.zero_lt_succ _), ih fun i hi => ?_⟩
    rw [tail, Nat.add_assoc, Nat.add_comm 1 i]
    exact h (i + 1) (Nat.succ_lt_succ hi)

/-- The supply of the words of a list begins with them. -/
theorem begins_ofList (words : List UInt32) : (ofList words).Begins words := by
  refine begins_of_getD fun i _ => ?_
  simp [ofList]

end Words

/-! ### The lowest option -/

theorem mem_of_lowest? {options : List (Alternative × Nat)} {x : Alternative × Nat}
    (h : lowest? options = some x) : x ∈ options := by
  obtain ⟨_, -, hfind⟩ := Option.bind_eq_some_iff.mp h
  exact List.mem_of_find?_eq_some hfind

/-- There is a lowest option if there are any. -/
theorem exists_lowest {options : List (Alternative × Nat)} (hne : options ≠ []) :
    ∃ x ∈ options, lowest? options = some x ∧ ∀ y ∈ options, x.2 ≤ y.2 := by
  obtain ⟨y, hy⟩ := List.exists_mem_of_ne_nil options hne
  obtain ⟨least, hleast⟩ := Option.isSome_iff_exists.mp
    (List.isSome_min?_of_mem (List.mem_map_of_mem (f := Prod.snd) hy))
  obtain ⟨hmem, hle⟩ := List.min?_eq_some_iff.mp hleast
  obtain ⟨z, hz, hzleast⟩ := List.mem_map.mp hmem
  obtain ⟨x, hfind⟩ : ∃ x, options.find? (fun option => option.2 == least) = some x :=
    Option.isSome_iff_exists.mp (List.find?_isSome.mpr ⟨z, hz, beq_iff_eq.mpr hzleast⟩)
  have hfound := List.find?_some hfind
  have hx : x.2 = least := beq_iff_eq.mp hfound
  refine ⟨x, List.mem_of_find?_eq_some hfind, ?_, fun y hy => ?_⟩
  · rw [lowest?, hleast]
    exact hfind
  · exact hx ▸ hle y.2 (List.mem_map_of_mem hy)

theorem Definition.mem_productive {d : Definition} {h : Heights} {a : Alternative} {n : Nat} :
    (a, n) ∈ d.productive h ↔ a ∈ d.alternatives ∧ a.height? h = some n := by
  simp [productive]

end ContextFree
