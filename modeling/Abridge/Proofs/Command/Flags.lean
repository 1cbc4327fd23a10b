import Abridge.Command.Arguments

/-! One flag more on the command line. Wherever it stands among the options, the rest is read as it was without it
    (`reads_with_flag`), unless the flag cannot be read there: it was given before, or it stands in the place of a
    value. -/

namespace Abridge.Command

variable {f : Flag} {a b : Arguments}

/-- How a flag is given. -/
def Flag.argument (f : Flag) : Text := '-' :: '-' :: f.name.toList

theorem ofArgument_argument (f : Flag) : Word.ofArgument f.argument = .flag f := by
  cases f <;> rfl

theorem isValue_argument (f : Flag) : isValue f.argument = false := by
  cases f <;> rfl

/-- Only two dashes end the options. -/
theorem eq_of_endOfOptions {arg : Text} (h : Word.ofArgument arg = .endOfOptions) : arg = ['-', '-'] := by
  have halone : ∀ {name value w}, Word.alone name value w = .endOfOptions → w = .endOfOptions := by
    intro name value w h
    rw [Word.alone] at h
    split at h
    · cases h
    · exact h
  unfold Word.ofArgument at h
  split at h
  case h_1 => rfl
  case h_2 option =>
    rw [Word.ofLong] at h
    split at h
    · cases h
    split at h
    · cases halone h
    split at h
    · cases halone h
    split at h
    · cases halone h
    · cases h
  all_goals cases h

/-! ### Arguments -/

/-- The arguments `b` are `a` and one flag more. -/
structure Adds (f : Flag) (a b : Arguments) : Prop where
  root : b.root = a.root
  suffix : b.suffix = a.suffix
  new : f ∉ a.flags
  flags : ∀ g, g ∈ b.flags ↔ g = f ∨ g ∈ a.flags

theorem Adds.withRoot (h : Adds f a b) {arg : Text} {b' : Arguments} (hb : b.withRoot arg = .ok b') :
    ∃ a', a.withRoot arg = .ok a' ∧ Adds f a' b' := by
  rw [Arguments.withRoot, h.root] at hb
  rw [Arguments.withRoot]
  split at hb
  case isTrue => cases hb
  case isFalse hroot =>
    obtain rfl := Except.ok.inj hb
    exact ⟨_, if_neg hroot, ⟨rfl, h.suffix, h.new, h.flags⟩⟩

theorem Adds.withSuffix (h : Adds f a b) {arg : Text} {b' : Arguments} (hb : b.withSuffix arg = .ok b') :
    ∃ a', a.withSuffix arg = .ok a' ∧ Adds f a' b' := by
  rw [Arguments.withSuffix, h.suffix] at hb
  rw [Arguments.withSuffix]
  split at hb
  case isTrue => cases hb
  case isFalse hsuffix =>
    obtain rfl := Except.ok.inj hb
    exact ⟨_, if_neg hsuffix, ⟨h.root, rfl, h.new, h.flags⟩⟩

theorem Adds.withFlag (h : Adds f a b) {g : Flag} {b' : Arguments} (hb : b.withFlag g = .ok b') :
    ∃ a', a.withFlag g = .ok a' ∧ Adds f a' b' := by
  rw [Arguments.withFlag] at hb
  split at hb
  case isTrue => cases hb
  case isFalse hg =>
    obtain rfl := Except.ok.inj hb
    rw [h.flags, not_or] at hg
    refine ⟨_, if_neg hg.2, ⟨h.root, h.suffix, ?_, fun k => ?_⟩⟩
    · exact List.not_mem_cons_of_ne_of_not_mem (Ne.symm hg.1) h.new
    · simp only [List.mem_cons, h.flags]
      exact or_left_comm

theorem adds_withFlag {b : Arguments} (h : a.withFlag f = .ok b) : Adds f a b := by
  rw [Arguments.withFlag] at h
  split at h
  case isTrue => cases h
  case isFalse hf =>
    obtain rfl := Except.ok.inj h
    exact ⟨rfl, rfl, hf, fun g => List.mem_cons⟩

/-! ### Requests -/

/-- The second request is the first with one flag more, or cannot be read. -/
inductive Request.With (f : Flag) : Request → Request → Prop
  | run {a b : Arguments} : Adds f a b → With f (.run a) (.run b)
  | version : With f .version .version
  | help : With f .help .help
  | misuse {r : Request} {cause : Misuse} : With f r (.misuse cause)

namespace Request

theorem With.after {ea eb : Except Misuse Arguments} {next next' : Arguments → Request}
    (h : ∀ b, eb = .ok b → ∃ a, ea = .ok a ∧ With f (next a) (next' b)) : With f (after ea next) (after eb next') := by
  cases eb with
  | error cause => exact .misuse
  | ok b =>
    obtain ⟨a, rfl, hnext⟩ := h b rfl
    exact hnext

theorem with_readRoots (h : Adds f a b) (args : List Text) : With f (readRoots a args) (readRoots b args) := by
  induction args generalizing a b with
  | nil => exact .run h
  | cons arg args ih =>
    refine .after fun b' hb => ?_
    obtain ⟨a', ha, h'⟩ := h.withRoot hb
    exact ⟨a', ha, ih h'⟩

/-! ### One argument more

What `read` does with the first argument, for each word that it may be. -/

section Words
variable {arg : Text} {rest : List Text}

theorem read_endOfOptions (hw : Word.ofArgument arg = .endOfOptions) :
    read a (arg :: rest) = readRoots a rest := by
  rw [read.eq_def]
  simp only [hw]

theorem read_version (hw : Word.ofArgument arg = .version) : read a (arg :: rest) = .version := by
  rw [read.eq_def]
  simp only [hw]

theorem read_help (hw : Word.ofArgument arg = .help) : read a (arg :: rest) = .help := by
  rw [read.eq_def]
  simp only [hw]

theorem read_unreadable {cause : Misuse} (hw : Word.ofArgument arg = .unreadable cause) :
    read a (arg :: rest) = .misuse cause := by
  rw [read.eq_def]
  simp only [hw]

theorem read_plain (hw : Word.ofArgument arg = .plain) :
    read a (arg :: rest) = after (a.withRoot arg) (read · rest) := by
  rw [read.eq_def]
  simp only [hw]

theorem read_flag {g : Flag} (hw : Word.ofArgument arg = .flag g) :
    read a (arg :: rest) = after (a.withFlag g) (read · rest) := by
  rw [read.eq_def]
  simp only [hw]

theorem read_suffix {value : Text} (hw : Word.ofArgument arg = .suffix (some value)) :
    read a (arg :: rest) = after (a.withSuffix value) (read · rest) := by
  rw [read.eq_def]
  simp only [hw]

theorem read_suffix_value {value : Text} (hw : Word.ofArgument arg = .suffix none) (hvalue : isValue value = true) :
    read a (arg :: value :: rest) = after (a.withSuffix value) (read · rest) := by
  rw [read.eq_def]
  simp only [hw, hvalue, if_true]

theorem read_suffix_missing {value : Text} (hw : Word.ofArgument arg = .suffix none) (hvalue : ¬isValue value = true) :
    read a (arg :: value :: rest) = .misuse (.valueMissing "suffix") := by
  rw [read.eq_def]
  simp only [hw, if_neg hvalue]

end Words

/-! ### One flag more -/

/-- The arguments that follow are read alike with the flag and without. -/
theorem with_read (h : Adds f a b) (args : List Text) : With f (read a args) (read b args) := by
  induction a, args using read.induct generalizing b with
  | case1 a => exact .run h
  | case2 a arg rest hw =>
    rw [read_endOfOptions hw, read_endOfOptions hw]
    exact with_readRoots h rest
  | case3 a arg rest hw =>
    rw [read_version hw, read_version hw]
    exact .version
  | case4 a arg rest hw =>
    rw [read_help hw, read_help hw]
    exact .help
  | case5 a arg rest cause hw =>
    rw [read_unreadable hw, read_unreadable hw]
    exact .misuse
  | case6 a arg rest hw ih =>
    rw [read_plain hw, read_plain hw]
    refine .after fun b' hb => ?_
    obtain ⟨a', ha, h'⟩ := h.withRoot hb
    exact ⟨a', ha, ih a' h'⟩
  | case7 a arg rest g hw ih =>
    rw [read_flag hw, read_flag hw]
    refine .after fun b' hb => ?_
    obtain ⟨a', ha, h'⟩ := h.withFlag hb
    exact ⟨a', ha, ih a' h'⟩
  | case8 a arg rest value hw ih =>
    rw [read_suffix hw, read_suffix hw]
    refine .after fun b' hb => ?_
    obtain ⟨a', ha, h'⟩ := h.withSuffix hb
    exact ⟨a', ha, ih a' h'⟩
  | case9 a arg hw =>
    simp only [read, hw]
    exact .misuse
  | case10 a arg value rest hw hvalue ih =>
    rw [read_suffix_value hw hvalue, read_suffix_value hw hvalue]
    refine .after fun b' hb => ?_
    obtain ⟨a', ha, h'⟩ := h.withSuffix hb
    exact ⟨a', ha, ih a' h'⟩
  | case11 a arg value rest hw hvalue =>
    rw [read_suffix_missing hw hvalue, read_suffix_missing hw hvalue]
    exact .misuse

theorem with_read_insert (f : Flag) (a : Arguments) {xs : List Text} (hxs : ['-', '-'] ∉ xs) (ys : List Text) :
    With f (read a (xs ++ ys)) (read a (xs ++ f.argument :: ys)) := by
  induction a, xs using read.induct with
  | case1 a =>
    rw [List.nil_append, List.nil_append, read_flag (ofArgument_argument f)]
    cases h : a.withFlag f with
    | error cause => exact .misuse
    | ok b => exact with_read (adds_withFlag h) ys
  | case2 a arg rest hw => exact absurd (eq_of_endOfOptions hw ▸ List.mem_cons_self) hxs
  | case3 a arg rest hw =>
    rw [List.cons_append, List.cons_append, read_version hw, read_version hw]
    exact .version
  | case4 a arg rest hw =>
    rw [List.cons_append, List.cons_append, read_help hw, read_help hw]
    exact .help
  | case5 a arg rest cause hw =>
    rw [List.cons_append, List.cons_append, read_unreadable hw, read_unreadable hw]
    exact .misuse
  | case6 a arg rest hw ih =>
    rw [List.cons_append, List.cons_append, read_plain hw, read_plain hw]
    exact .after fun b hb => ⟨b, hb, ih b (List.not_mem_of_not_mem_cons hxs)⟩
  | case7 a arg rest g hw ih =>
    rw [List.cons_append, List.cons_append, read_flag hw, read_flag hw]
    exact .after fun b hb => ⟨b, hb, ih b (List.not_mem_of_not_mem_cons hxs)⟩
  | case8 a arg rest value hw ih =>
    rw [List.cons_append, List.cons_append, read_suffix hw, read_suffix hw]
    exact .after fun b hb => ⟨b, hb, ih b (List.not_mem_of_not_mem_cons hxs)⟩
  | case9 a arg hw =>
    -- The flag stands where the value should.
    rw [List.singleton_append, List.singleton_append, read_suffix_missing hw (by simp [isValue_argument])]
    exact .misuse
  | case10 a arg value rest hw hvalue ih =>
    simp only [List.cons_append]
    rw [read_suffix_value hw hvalue, read_suffix_value hw hvalue]
    refine .after fun b hb => ⟨b, hb, ih b fun hmem => hxs ?_⟩
    exact List.mem_cons_of_mem _ (List.mem_cons_of_mem _ hmem)
  | case11 a arg value rest hw hvalue =>
    simp only [List.cons_append]
    rw [read_suffix_missing hw hvalue, read_suffix_missing hw hvalue]
    exact .misuse

/-- A flag among the options adds itself to what is asked for, or makes it unreadable. -/
theorem reads_with_flag (f : Flag) {xs : List Text} (hxs : ['-', '-'] ∉ xs) (ys : List Text) :
    With f (ofArguments (xs ++ ys)) (ofArguments (xs ++ f.argument :: ys)) := with_read_insert f {} hxs ys

end Request

end Abridge.Command
