import Codegraph.RustCfg.Predicate
import Mathlib.Data.List.TakeWhile

namespace Codegraph.RustCfg

open Library List

section Texts

variable {text first core last : List Char} {c : Char}

/-- A text that starts and ends without a blank. -/
structure Tight (text : List Char) : Prop where
  nonempty : text ≠ []
  start : ∀ c, text.head? = some c → Text.isWhitespace c = false
  stop : ∀ c, text.getLast? = some c → Text.isWhitespace c = false

theorem Tight.of_none (nonempty : text ≠ []) (none : ∀ c ∈ text, Text.isWhitespace c = false) : Tight text :=
  ⟨nonempty, fun c start => none c (mem_of_head? start), fun c stop => none c (mem_of_getLast? stop)⟩

theorem dropWhile_of_head {drop : Char → Bool}
    (stays : ∀ c, text.head? = some c → drop c = false) : text.dropWhile drop = text := by
  cases text with
  | nil => rfl
  | cons c rest => rw [dropWhile_cons_of_neg (by simp [stays c rfl])]

theorem trimEndMatches_of_last {drop : Char → Bool} (stays : ∀ c, text.getLast? = some c → drop c = false) :
    Text.trimEndMatches drop text = text := by
  rw [Text.trimEndMatches, dropWhile_of_head, reverse_reverse]
  rwa [head?_reverse]

theorem trim_padded (before : Predicate.Blank first) (tight : Tight core)
    (after : Predicate.Blank last) : Text.trim (first ++ core ++ last) = core := by
  have start : (first ++ core ++ last).dropWhile Text.isWhitespace = core ++ last := by
    rw [append_assoc, dropWhile_append_of_pos before]
    apply dropWhile_of_head
    intro c head
    rw [head?_append_of_ne_nil _ tight.nonempty] at head
    exact tight.start c head
  rw [Text.trim, Text.trimEndMatches, start, reverse_append, dropWhile_append_of_pos, dropWhile_of_head,
    reverse_reverse]
  · rw [head?_reverse]
    exact tight.stop
  · exact fun c mem => after c (mem_reverse.mp mem)

theorem trim_blank (blank : Predicate.Blank text) : Text.trim text = [] := by
  unfold Text.trim
  have none : text.dropWhile Text.isWhitespace = [] := by rwa [dropWhile_eq_nil_iff]
  rw [none]
  rfl

theorem splitOnce_append {separator : Char} (before : ∀ c ∈ first, c ≠ separator) :
    splitOnce separator (first ++ separator :: last) = some (first, last) := by
  rw [splitOnce, dropWhile_append_of_pos (by simpa using before),
    takeWhile_append_of_pos (by simpa using before)]
  simp

theorem splitOnce_none {separator : Char} (absent : ∀ c ∈ text, c ≠ separator) :
    splitOnce separator text = none := by
  unfold splitOnce
  have none : (text.dropWhile fun c => c ≠ separator) = [] := by
    rw [dropWhile_eq_nil_iff]
    simpa using absent
  rw [none]

/-- Trimming keeps what is no blank. -/
theorem mem_trim (mem : c ∈ text) (visible : Text.isWhitespace c = false) : c ∈ Text.trim text := by
  have stays {text : List Char} (mem : c ∈ text) : c ∈ text.dropWhile Text.isWhitespace := by
    rw [← takeWhile_append_dropWhile (p := Text.isWhitespace) (l := text)] at mem
    rcases mem_append.mp mem with early | late
    · have blank := mem_takeWhile_imp early
      rw [visible] at blank
      contradiction
    · exact late
  rw [Text.trim, Text.trimEndMatches, mem_reverse]
  exact stays (mem_reverse.mpr (stays mem))

/-- The quotes around a value without quotes are trimmed. -/
theorem trimQuotes_quoted (plain : '"' ∉ text) : trimQuotes ('"' :: (text ++ ['"'])) = text := by
  have other (c : Char) (mem : c ∈ text) : (c = '"' : Bool) = false := by
    simp only [decide_eq_false_iff_not]
    rintro rfl
    exact plain mem
  unfold trimQuotes
  cases text with
  | nil => decide
  | cons c rest =>
    have start : ('"' :: (c :: rest ++ ['"'])).dropWhile (fun c => c = '"') = c :: rest ++ ['"'] := by
      rw [dropWhile_cons_of_pos (by decide), cons_append,
        dropWhile_cons_of_neg (by simpa using other c mem_cons_self)]
    rw [start]
    rw [Text.trimEndMatches, reverse_append, reverse_singleton, singleton_append,
      dropWhile_cons_of_pos (by decide), dropWhile_of_head, reverse_reverse]
    intro last head
    rw [head?_reverse] at head
    exact other last (mem_of_getLast? head)

end Texts

section Opaque

variable {least : Int} {text first second : List Char}

/-- A text without commas outside brackets and strings: the split runs over it. -/
def Passes (least : Int) (text : List Char) : Prop :=
  ∀ depth, least ≤ depth → ∀ current rest, splitFrom depth false current (text ++ rest) =
      splitFrom depth false (text.reverse ++ current) rest

theorem Passes.mono {least' : Int} (passes : Passes least text) (above : least ≤ least') :
    Passes least' text :=
  fun depth deep => passes depth (above.trans deep)

theorem Passes.append (before : Passes least first) (after : Passes least second) :
    Passes least (first ++ second) := by
  intro depth deep current rest
  rw [append_assoc, before depth deep, after depth deep, reverse_append, append_assoc]

theorem passes_plain (plain : ∀ c ∈ text, c ≠ '"' ∧ c ≠ '(' ∧ c ≠ ')' ∧ c ≠ ',') : Passes least text := by
  intro depth deep current rest
  induction text generalizing current with
  | nil => rfl
  | cons c text ih =>
    obtain ⟨quote, opens, closes, comma⟩ := plain c mem_cons_self
    rw [cons_append, splitFrom, if_neg quote, if_neg (fun both => opens both.1),
      if_neg (fun both => closes both.1), if_neg (fun both => comma both.1),
      ih fun c mem => plain c (mem_cons_of_mem _ mem), reverse_cons,
      append_assoc]
    rfl

theorem splitFrom_string (plain : '"' ∉ text) (depth : Int) (current rest : List Char) :
    splitFrom depth true current (text ++ rest) = splitFrom depth true (text.reverse ++ current) rest := by
  induction text generalizing current with
  | nil => rfl
  | cons c text ih =>
    rw [mem_cons, not_or] at plain
    rw [cons_append, splitFrom, if_neg (Ne.symm plain.1), if_neg (by simp),
      if_neg (by simp), if_neg (by simp), ih plain.2, reverse_cons,
      append_assoc]
    rfl

theorem passes_quoted (plain : '"' ∉ text) : Passes least ('"' :: (text ++ ['"'])) := by
  intro depth deep current rest
  rw [cons_append, splitFrom, if_pos rfl, append_assoc, Bool.not_false,
    splitFrom_string plain, cons_append, splitFrom, if_pos rfl, nil_append]
  simp

theorem passes_brackets (inner : Passes (least + 1) text) : Passes least ('(' :: (text ++ [')'])) := by
  intro depth deep current rest
  rw [cons_append, splitFrom, if_neg (by decide), if_pos (by decide), append_assoc,
    inner _ (by omega), cons_append, splitFrom, if_neg (by decide), if_neg (by decide),
    if_pos (by decide), nil_append]
  simp

theorem passes_comma : Passes 1 [','] := by
  intro depth deep current rest
  rw [cons_append, splitFrom, if_neg (by decide), if_neg (by decide), if_neg (by decide), if_neg (by omega)]
  rfl

end Opaque

namespace Predicate

section Printing

variable {predicate : Predicate} {args : List Predicate} {text inner blank : List Char} {c : Char}

theorem isNameChar_iff : isNameChar c = true ↔
    Text.isWhitespace c = false ∧ c ≠ '(' ∧ c ≠ ')' ∧ c ≠ ',' ∧ c ≠ '=' ∧ c ≠ '"' := by
  simp [isNameChar, and_assoc]

theorem special_visible (special : c = '(' ∨ c = ')' ∨ c = ',' ∨ c = '=' ∨ c = '"') :
    Text.isWhitespace c = false := by
  rcases special with rfl | rfl | rfl | rfl | rfl <;> decide

theorem Blank.ne (isBlank : Blank blank) (mem : c ∈ blank) {other : Char}
    (special : other = '(' ∨ other = ')' ∨ other = ',' ∨ other = '=' ∨ other = '"') :
    c ≠ other := by
  rintro rfl
  have visible := special_visible special
  rw [isBlank c mem] at visible
  contradiction

theorem Blank.passes {least : Int} (isBlank : Blank blank) : Passes least blank :=
  passes_plain fun _ mem => ⟨isBlank.ne mem (by simp), isBlank.ne mem (by simp),
    isBlank.ne mem (by simp), isBlank.ne mem (by simp)⟩

theorem name_tight (name : Name) : Tight name.text :=
  Tight.of_none name.nonempty fun c mem => (isNameChar_iff.mp (name.plain c mem)).1

theorem name_passes {least : Int} (name : Name) : Passes least name.text :=
  passes_plain fun c mem => by
    obtain ⟨-, opens, closes, comma, -, quote⟩ := isNameChar_iff.mp (name.plain c mem)
    exact ⟨quote, opens, closes, comma⟩

/-- A negation has its argument in brackets like the other calls. -/
theorem prints_not {arg : Predicate} (prints : Prints (.not arg) text) :
    ∃ before inner, Blank before ∧ PrintsArgs [arg] inner ∧
      text = "not".toList ++ before ++ '(' :: (inner ++ [')']) := by
  obtain ⟨before, first, core, last, comma, isBlank, start, printed, stop, ending, rfl⟩ := prints
  refine ⟨before, first ++ core ++ last ++ comma, isBlank, ?_, rfl⟩
  simp only [PrintsArgs]
  refine ⟨first, core, last, comma, start, printed, stop, ?_, rfl⟩
  rcases ending with rfl | ⟨rest, isRest, rfl⟩
  · exact .inl ⟨trivial, rfl⟩
  · exact .inr ⟨rest, isRest, rfl⟩

theorem call_tight {name before : List Char} (tight : Tight name) :
    Tight (name ++ before ++ '(' :: (inner ++ [')'])) := by
  refine ⟨by simp, ?_, ?_⟩
  · intro c start
    rw [append_assoc, head?_append_of_ne_nil _ tight.nonempty] at start
    exact tight.start c start
  intro c stop
  have last : (name ++ before ++ '(' :: (inner ++ [')'])).getLast? = some ')' := by
    rw [getLast?_append_of_ne_nil _ (by simp), ← cons_append, getLast?_concat]
  rw [last] at stop
  obtain rfl := Option.some.inj stop
  decide

theorem prints_tight (prints : predicate.Prints text) : Tight text := by
  cases predicate with
  | ident name => exact prints ▸ name_tight name
  | literal value =>
    subst prints
    cases value <;> exact Tight.of_none (by decide) (by decide)
  | atom key value =>
    obtain ⟨before, after, -, -, rfl⟩ := prints
    refine ⟨by simp, ?_, ?_⟩
    · intro c start
      rw [append_assoc, head?_append_of_ne_nil _ key.nonempty] at start
      exact (name_tight key).start c start
    intro c stop
    rw [getLast?_append_of_ne_nil _ (by simp), getLast?_cons_of_ne_nil (by simp),
      getLast?_append_of_ne_nil _ (by simp), getLast?_cons_of_ne_nil (by simp),
      getLast?_concat] at stop
    obtain rfl := Option.some.inj stop
    decide
  | all args =>
    obtain ⟨before, inner, -, -, rfl⟩ := prints
    exact call_tight (Tight.of_none (by decide) (by decide))
  | any args =>
    obtain ⟨before, inner, -, -, rfl⟩ := prints
    exact call_tight (Tight.of_none (by decide) (by decide))
  | not arg =>
    obtain ⟨before, inner, -, -, rfl⟩ := prints_not prints
    exact call_tight (Tight.of_none (by decide) (by decide))

/-- The commas of the arguments are inside the brackets of their call. -/
theorem printsArgs_passes (each : ∀ arg ∈ args, ∀ core, arg.Prints core → Passes 0 core)
    (prints : PrintsArgs args inner) : Passes 1 inner := by
  induction args generalizing inner with
  | nil => exact prints.passes
  | cons arg rest ih =>
    obtain ⟨first, core, last, after, start, printed, stop, ending, rfl⟩ := prints
    have middle : Passes 1 core := (each arg mem_cons_self core printed).mono (by decide)
    have ended : Passes 1 after := by
      rcases ending with ⟨_, rfl⟩ | ⟨more, others, rfl⟩
      · exact passes_plain (by simp)
      · exact passes_comma.append
          (ih (fun arg mem => each arg (mem_cons_of_mem _ mem)) others)
    exact ((start.passes.append middle).append stop.passes).append ended

theorem prints_passes (predicate : Predicate) {text : List Char} (prints : predicate.Prints text) :
    Passes 0 text := by
  have called {name before inner : List Char} {args : List Predicate}
      (plain : ∀ c ∈ name, c ≠ '"' ∧ c ≠ '(' ∧ c ≠ ')' ∧ c ≠ ',') (isBlank : Blank before)
      (each : ∀ arg ∈ args, ∀ core, arg.Prints core → Passes 0 core)
      (inside : PrintsArgs args inner) :
      Passes 0 (name ++ before ++ '(' :: (inner ++ [')'])) :=
    ((passes_plain plain).append isBlank.passes).append
      (passes_brackets (printsArgs_passes each inside))
  induction predicate using Predicate.induct generalizing text with
  | ident name => exact prints ▸ name_passes name
  | literal value =>
    subst prints
    cases value <;> exact passes_plain (by decide)
  | atom key value =>
    obtain ⟨before, after, start, stop, rfl⟩ := prints
    have equals : Passes 0 ['='] := passes_plain (by decide)
    exact ((name_passes key).append start.passes).append
      (equals.append (stop.passes.append (passes_quoted value.plain)))
  | all args ih =>
    obtain ⟨before, inner, isBlank, inside, rfl⟩ := prints
    exact called (by decide) isBlank (fun arg mem core => ih arg mem) inside
  | any args ih =>
    obtain ⟨before, inner, isBlank, inside, rfl⟩ := prints
    exact called (by decide) isBlank (fun arg mem core => ih arg mem) inside
  | not arg ih =>
    obtain ⟨before, inner, isBlank, inside, rfl⟩ := prints_not prints
    refine called (by decide) isBlank ?_ inside
    intro other mem core printed
    rw [mem_singleton.mp mem] at printed
    exact ih printed

/-- The arguments are split into a text of each of them. -/
theorem splitArgs_printed (prints : PrintsArgs args inner) :
    List.Forall₂ (fun arg core => arg.Prints core ∧ core.length ≤ inner.length) args
      (splitArgs inner) := by
  unfold splitArgs
  induction args generalizing inner with
  | nil =>
    have whole := prints.passes 0 (Int.le_refl 0) [] []
    rw [append_nil, append_nil] at whole
    rw [whole, splitFrom, reverse_reverse, trim_blank prints]
    exact List.Forall₂.nil
  | cons arg rest ih =>
    obtain ⟨first, core, last, after, start, printed, stop, ending, rfl⟩ := prints
    have tight := prints_tight printed
    have whole := ((start.passes.append (prints_passes arg printed)).append stop.passes)
      0 (Int.le_refl 0) [] after
    rw [append_nil] at whole
    rw [whole]
    rcases ending with ⟨rfl, rfl⟩ | ⟨more, others, rfl⟩
    · rw [splitFrom, reverse_reverse, trim_padded start tight stop, if_neg tight.nonempty]
      refine List.Forall₂.cons ⟨printed, ?_⟩ List.Forall₂.nil
      simp only [length_append]
      omega
    rw [splitFrom, if_neg (by decide), if_neg (by decide), if_neg (by decide),
      if_pos (by decide), reverse_reverse, trim_padded start tight stop]
    refine List.Forall₂.cons ⟨printed, ?_⟩ ((ih others).imp ?_)
    · simp only [length_append]
      omega
    rintro other text ⟨printed', short⟩
    refine ⟨printed', short.trans ?_⟩
    simp only [length_append, length_cons]
    omega

end Printing

section Verdict

variable {features : Features} {fuel : Nat} {text name before inner : List Char}

theorem call_of_name (tight : Tight name) (plain : ∀ c ∈ name, isNameByte c = true ∧ c ≠ '(')
    (isBlank : Blank before) :
    call (name ++ before ++ '(' :: (inner ++ [')'])) = some (name, inner) := by
  have opens : ∀ c ∈ name ++ before, c ≠ '(' := by
    intro c mem
    rcases mem_append.mp mem with early | late
    · exact (plain c early).2
    · exact isBlank.ne late (by simp)
  have closes : trimEnd (inner ++ [')']) = inner ++ [')'] := by
    apply trimEndMatches_of_last
    intro c stop
    rw [getLast?_concat] at stop
    obtain rfl := Option.some.inj stop
    decide
  have inside : Text.stripSuffix [')'] (inner ++ [')']) = some inner := by
    rw [Text.stripSuffix, if_pos (by simp)]
    simp
  have trimmed : Text.trim (name ++ before) = name := by
    have padded := @trim_padded [] name before (fun _ impossible => by contradiction) tight isBlank
    simpa using padded
  have bytes := all_eq_true.mpr fun c mem => (plain c mem).1
  rw [call, splitOnce_append opens, Option.bind_some]
  simp only [closes, inside, Option.bind_some, trimmed]
  rw [if_pos ⟨tight.nonempty, bytes⟩]

theorem call_none (absent : ∀ c ∈ text, c ≠ '(') : call text = none := by
  rw [call, splitOnce_none absent]
  rfl

/-- A bracket in a value comes after the equal sign, which is no part of a name. -/
theorem call_atom (key : Name) {rest : List Char} (isBlank : Blank before) :
    call (key.text ++ before ++ '=' :: rest) = none := by
  have opens : ∀ c ∈ key.text ++ before ++ ['='], c ≠ '(' := by
    intro c mem
    rcases mem_append.mp mem with early | late
    · rcases mem_append.mp early with first | blank
      · exact (isNameChar_iff.mp (key.plain c first)).2.1
      · exact isBlank.ne blank (by simp)
    · rw [mem_singleton.mp late]
      decide
  unfold call splitOnce
  split
  · rfl
  rename_i after rest' found
  have equals : '=' ∈ (key.text ++ before ++ '=' :: rest).takeWhile fun c => c ≠ '(' := by
    rw [append_cons, takeWhile_append_of_pos (by simpa using opens)]
    simp
  have inside := mem_trim equals (by decide)
  rw [Option.bind_some, Option.bind_eq_none_iff]
  intro args _
  simp only
  rw [if_neg]
  rintro ⟨_, bytes⟩
  have byte := all_eq_true.mp bytes '=' inside
  revert byte
  decide

/-- The values of the split arguments are those of the arguments. -/
theorem evaluate_args {args : List Predicate} (inside : PrintsArgs args inner) (enough : inner.length < fuel)
    (each : ∀ arg ∈ args, ∀ text, arg.Printed text → text.length < fuel →
      evaluateWith features fuel text = (misread arg).decided features) :
    (splitArgs inner).map (evaluateWith features fuel) = decidedAll features (misreadAll args) := by
  have split := splitArgs_printed inside
  rw [decidedAll_eq, misreadAll_eq, map_map]
  clear inside
  generalize splitArgs inner = cores at split
  induction split with
  | nil => rfl
  | @cons arg core rest cores one others ih =>
    have here : evaluateWith features fuel core = (misread arg).decided features := by
      apply each arg mem_cons_self core ?_ (one.2.trans_lt enough)
      exact ⟨[], core, [], fun _ impossible => by contradiction, one.1,
        fun _ impossible => by contradiction, by simp⟩
    rw [map_cons, map_cons, here, ih fun arg mem => each arg (mem_cons_of_mem _ mem)]
    rfl

theorem evaluate_call {args : List Predicate} {first last : List Char} (tight : Tight name)
    (plain : ∀ c ∈ name, isNameByte c = true ∧ c ≠ '(') (isBlank : Blank before)
    (inside : PrintsArgs args inner) (start : Blank first) (stop : Blank last)
    (enough : (first ++ (name ++ before ++ '(' :: (inner ++ [')'])) ++ last).length < fuel)
    (each : ∀ arg ∈ args, ∀ fuel text, arg.Printed text → text.length < fuel →
      evaluateWith features fuel text = (misread arg).decided features) :
    evaluateWith features fuel (first ++ (name ++ before ++ '(' :: (inner ++ [')'])) ++ last) =
      callValue name (decidedAll features (misreadAll args)) := by
  obtain ⟨fuel, rfl⟩ := Nat.exists_eq_succ_of_ne_zero (ne_of_gt (Nat.zero_lt_of_lt enough))
  have shorter : inner.length < fuel := by
    simp only [length_append, length_cons] at enough
    omega
  rw [Nat.succ_eq_add_one, evaluateWith]
  simp only [trim_padded start (call_tight tight) stop, call_of_name tight plain isBlank]
  rw [if_neg (by simp), evaluate_args inside shorter fun arg mem => each arg mem fuel]

theorem evaluate_leaf {core first last : List Char} (start : Blank first) (tight : Tight core)
    (stop : Blank last) (noCall : call core = none) (enough : (first ++ core ++ last).length < fuel) :
    evaluateWith features fuel (first ++ core ++ last) =
      match splitOnce '=' core with
      | some (key, value) => hostValue features (Text.trim key) (trimQuotes (Text.trim value))
      | none => nameValue core := by
  obtain ⟨fuel, rfl⟩ := Nat.exists_eq_succ_of_ne_zero (ne_of_gt (Nat.zero_lt_of_lt enough))
  rw [Nat.succ_eq_add_one, evaluateWith]
  simp only [trim_padded start tight stop, noCall]
  exact if_neg tight.nonempty

/-- A printed predicate is evaluated by the three-valued rules with its literals `true` misread. -/
theorem evaluate_printed (predicate : Predicate) (features : Features) {fuel : Nat}
    {text : List Char} (printed : predicate.Printed text) (enough : text.length < fuel) :
    evaluateWith features fuel text = (misread predicate).decided features := by
  induction predicate using Predicate.induct generalizing fuel text with
  | ident name =>
    obtain ⟨first, core, last, start, prints, stop, rfl⟩ := printed
    have tight := prints_tight prints
    subst prints
    have opens : ∀ c ∈ name.text, c ≠ '(' := fun c mem => (isNameChar_iff.mp (name.plain c mem)).2.1
    have equals : ∀ c ∈ name.text, c ≠ '=' := fun c mem =>
      (isNameChar_iff.mp (name.plain c mem)).2.2.2.2.1
    rw [evaluate_leaf start tight stop (call_none opens) enough, splitOnce_none equals]
    rfl
  | literal value =>
    obtain ⟨first, core, last, start, prints, stop, rfl⟩ := printed
    have tight := prints_tight prints
    subst prints
    cases value with
    | true =>
      rw [evaluate_leaf start tight stop (call_none (by decide)) enough, splitOnce_none (by decide)]
      change nameValue "true".toList = some false
      decide
    | false =>
      rw [evaluate_leaf start tight stop (call_none (by decide)) enough, splitOnce_none (by decide)]
      change nameValue "false".toList = some false
      decide
  | atom key value =>
    obtain ⟨first, core, last, start, prints, stop, rfl⟩ := printed
    have tight := prints_tight prints
    simp only [Prints] at prints
    obtain ⟨before, after, isBlank, isBlank', rfl⟩ := prints
    have equals : ∀ c ∈ key.text ++ before, c ≠ '=' := by
      intro c mem
      rcases mem_append.mp mem with early | late
      · exact (isNameChar_iff.mp (key.plain c early)).2.2.2.2.1
      · exact isBlank.ne late (by simp)
    have trimmed : Text.trim (key.text ++ before) = key.text := by
      have padded := @trim_padded [] key.text before (fun _ impossible => by contradiction)
        (name_tight key) isBlank
      simpa using padded
    have quoted : Tight ('"' :: (value.text ++ ['"'])) := by
      refine ⟨by simp, ?_, ?_⟩
      · intro c head
        obtain rfl := Option.some.inj head
        decide
      intro c ending
      rw [← cons_append, getLast?_concat] at ending
      obtain rfl := Option.some.inj ending
      decide
    have trimmed' : Text.trim (after ++ '"' :: (value.text ++ ['"'])) = '"' :: (value.text ++ ['"']) := by
      have padded := @trim_padded after ('"' :: (value.text ++ ['"'])) [] isBlank' quoted
        (fun _ impossible => by contradiction)
      simpa using padded
    rw [evaluate_leaf start tight stop (call_atom key isBlank) enough, splitOnce_append equals]
    simp only [trimmed, trimmed', trimQuotes_quoted value.plain]
    rfl
  | all args ih =>
    obtain ⟨first, core, last, start, prints, stop, rfl⟩ := printed
    simp only [Prints] at prints
    obtain ⟨before, inner, isBlank, inside, rfl⟩ := prints
    rw [evaluate_call (Tight.of_none (by decide) (by decide)) (by decide) isBlank inside start
      stop enough fun arg mem fuel text => ih arg mem]
    rfl
  | any args ih =>
    obtain ⟨first, core, last, start, prints, stop, rfl⟩ := printed
    simp only [Prints] at prints
    obtain ⟨before, inner, isBlank, inside, rfl⟩ := prints
    rw [evaluate_call (Tight.of_none (by decide) (by decide)) (by decide) isBlank inside start
      stop enough fun arg mem fuel text => ih arg mem]
    rfl
  | not arg ih =>
    obtain ⟨first, core, last, start, prints, stop, rfl⟩ := printed
    obtain ⟨before, inner, isBlank, inside, rfl⟩ := prints_not prints
    have each : ∀ other ∈ [arg], ∀ fuel text, other.Printed text → text.length < fuel →
        evaluateWith features fuel text = (misread other).decided features := by
      intro other mem fuel text printed
      rw [mem_singleton.mp mem] at printed ⊢
      exact ih printed
    rw [evaluate_call (Tight.of_none (by decide) (by decide)) (by decide) isBlank inside start
      stop enough each]
    rfl

end Verdict

/-- Where the evaluation of a text decides, the predicate has that value in test builds and in
others, with the given features or with all; and more is decided with features than without. -/
def Sound (predicate : Predicate) (text : List Char) : Prop :=
  (∀ enabled result, evaluate text (.default enabled) = some result →
    ∀ test, predicate.value enabled test = result) ∧
  (∀ result, evaluate text .unknown = some result → ∀ enabled test, predicate.value enabled test = result) ∧
  ∀ result, evaluate text .unknown = some result → ∀ enabled, evaluate text (.default enabled) = some result

theorem evaluate_eq {predicate : Predicate} {text : List Char} (printed : predicate.Printed text)
    (features : Features) : evaluate text features = (misread predicate).decided features :=
  evaluate_printed predicate features printed (Nat.lt_succ_self _)

/-- The verdicts with features are those that matter. -/
theorem sound_of_default {predicate : Predicate} {text : List Char} (printed : predicate.Printed text)
    (holds : ∀ enabled result, (misread predicate).decided (.default enabled) = some result →
      ∀ test, predicate.value enabled test = result) : predicate.Sound text := by
  simp only [Sound, evaluate_eq printed]
  refine ⟨holds, ?_, ?_⟩
  · intro result decides enabled
    exact holds enabled result (decided_mono _ enabled result decides)
  · intro result decides enabled
    exact decided_mono _ enabled result decides

def nameUnix : Name := ⟨"unix".toList, by decide, by decide⟩

end Predicate

end Codegraph.RustCfg
