import Abridge.Batch
import Abridge.Proofs.Text.Bytes
import Abridge.Proofs.Tree.Files
import Mathlib.Data.List.Count
import Mathlib.Logic.Function.Iterate

/-! What a batch does to the files that its paths lead to. Each path abridges its file once more, so a batch comes to
    one change of bytes, file by file (`state_abridgeFiles`). Where two paths lead to one file only if that file
    stays as it is, each is reported by itself (`entries_abridgeFiles`); a dry run always reports like that and
    changes nothing (`abridgeFiles_dry`). Otherwise a path may be reported as unchanged for the sake of one before
    it, but the same paths fail (`failed_abridgeFiles`). -/

namespace Abridge.Batch

/-! ### One file -/

/-- What is reported of a file that reads like this. -/
def outcomeOf (o : Options) (p : Path) : Except Fault Text → Outcome
  | .error fault => .failed (Failure.unreadable p fault).message
  | .ok text => if Snippet.abridge o text = text then .unchanged else .updated

/-- The entry of a path in a report on this tree. -/
def entryOf (o : Options) (t : Tree) (p : Path) : Entry := ⟨p, outcomeOf o p (t.readText p)⟩

/-- The bytes of a file after it was abridged; bytes that are no text stay. -/
def abridgedBytes (o : Options) (content : List Byte) : List Byte :=
  match Text.ofBytes? content with
  | some text => (Snippet.abridge o text).bytes
  | none => content

section Bytes
variable {o : Options} {content : List Byte} {text : Text}

theorem abridgedBytes_of_text (h : Text.ofBytes? content = some text) :
    abridgedBytes o content = (Snippet.abridge o text).bytes := by
  simp only [abridgedBytes, h]

theorem abridgedBytes_of_no_text (h : Text.ofBytes? content = none) : abridgedBytes o content = content := by
  simp only [abridgedBytes, h]

/-- A text keeps its bytes just if abridging does not change it. -/
theorem abridgedBytes_eq_self_iff (h : Text.ofBytes? content = some text) :
    abridgedBytes o content = content ↔ Snippet.abridge o text = text := by
  rw [abridgedBytes_of_text h]
  constructor
  · intro hbytes
    rw [← hbytes, Text.ofBytes?_bytes] at h
    exact Option.some.inj h
  · intro hsame
    rw [hsame, Text.bytes_of_ofBytes? h]

/-- What is a text stays one, and what is none stays none. -/
theorem ofBytes?_abridgedBytes_eq_none_iff :
    Text.ofBytes? (abridgedBytes o content) = none ↔ Text.ofBytes? content = none := by
  cases h : Text.ofBytes? content with
  | none => rw [abridgedBytes_of_no_text h, h]
  | some text => simp [abridgedBytes_of_text h, Text.ofBytes?_bytes]

end Bytes

section Outcome
variable {o : Options} {p : Path} {r : Except Fault Text}

theorem failed_outcomeOf_iff : (∃ reason, outcomeOf o p r = .failed reason) ↔ ∃ fault, r = .error fault := by
  cases r with
  | error fault => simp [outcomeOf]
  | ok text => by_cases h : Snippet.abridge o text = text <;> simp [outcomeOf, h]

theorem updated_outcomeOf_iff : outcomeOf o p r = .updated ↔ ∃ text, r = .ok text ∧ Snippet.abridge o text ≠ text := by
  cases r with
  | error fault => simp [outcomeOf]
  | ok text => by_cases h : Snippet.abridge o text = text <;> simp [outcomeOf, h]

theorem unchanged_outcomeOf_iff :
    outcomeOf o p r = .unchanged ↔ ∃ text, r = .ok text ∧ Snippet.abridge o text = text := by
  cases r with
  | error fault => simp [outcomeOf]
  | ok text => by_cases h : Snippet.abridge o text = text <;> simp [outcomeOf, h]

end Outcome

theorem failed_entryOf_iff {o : Options} (t : Tree) (p : Path) :
    (entryOf o t p).outcome matches .failed _ ↔ ∃ fault, t.readText p = .error fault := by
  rw [← failed_outcomeOf_iff (o := o) (p := p), entryOf]
  cases outcomeOf o p (t.readText p) <;> simp

theorem outcome_abridgeFile (o : Options) (dryRun : Bool) (t : Tree) (p : Path) :
    (abridgeFile o dryRun t p).1.outcome = outcomeOf o p (t.readText p) := by
  rw [abridgeFile]
  cases t.readText p with
  | error fault => rfl
  | ok text =>
    by_cases h : Snippet.abridge o text = text
    · simp [h, outcomeOf, Attempt.outcome]
    · simp [h, outcomeOf, Attempt.outcome]

theorem abridgeFile_dry (o : Options) (t : Tree) (p : Path) : (abridgeFile o true t p).2 = t := by
  rw [abridgeFile]
  cases t.readText p with
  | error fault => rfl
  | ok text => by_cases h : Snippet.abridge o text = text <;> simp [h]

/-! ### Files that were abridged -/

/-- The tree after these files were abridged, one that stands there twice two times. -/
def abridged (o : Options) (t : Tree) (ids : List FileId) : Tree :=
  { t with contents := fun id => (abridgedBytes o)^[ids.count id] (t.contents id) }

section Abridged
variable {o : Options} {t : Tree} {p : Path} {id : FileId}

theorem abridged_singleton (o : Options) (t : Tree) (id : FileId) :
    abridged o t [id] = t.setContent id (abridgedBytes o (t.contents id)) := by
  rw [abridged, Tree.setContent]
  congr 1
  funext other
  by_cases h : other = id
  · simp [h]
  · simp [h, Ne.symm h]

theorem abridged_abridged (o : Options) (t : Tree) (as bs : List FileId) :
    abridged o (abridged o t as) bs = abridged o t (as ++ bs) := by
  simp only [abridged, List.count_append, Nat.add_comm (as.count _), Function.iterate_add_apply]

/-- A file that stays when it is abridged once stays when it is abridged more often. -/
theorem contents_abridged (h : abridgedBytes o (t.contents id) = t.contents id) (ids : List FileId) :
    (abridged o t ids).contents id = t.contents id :=
  Function.iterate_fixed h _

theorem readText_abridged (ids : List FileId)
    (h : ∀ id, t.fileAt? p = some id → id ∈ ids → abridgedBytes o (t.contents id) = t.contents id) :
    (abridged o t ids).readText p = t.readText p := by
  refine Tree.readText_congr fun id hp => ?_
  by_cases hid : id ∈ ids
  · exact contents_abridged (h id hp hid) ids
  · rw [List.count_eq_zero_of_not_mem hid, Function.iterate_zero_apply]

theorem readText_abridged_eq_error_iff (ids : List FileId) :
    (∃ fault, (abridged o t ids).readText p = .error fault) ↔ ∃ fault, t.readText p = .error fault := by
  cases hp : t.fileAt? p with
  | none => exact iff_of_true (Tree.exists_fault_of_fileAt? hp) (Tree.exists_fault_of_fileAt? hp)
  | some id =>
    have htext : Text.ofBytes? ((abridged o t ids).contents id) = none ↔ Text.ofBytes? (t.contents id) = none := by
      change Text.ofBytes? ((abridgedBytes o)^[ids.count id] (t.contents id)) = none ↔ _
      induction ids.count id with
      | zero => rfl
      | succ n ih => rw [Function.iterate_succ_apply', ofBytes?_abridgedBytes_eq_none_iff, ih]
    have hp' : (abridged o t ids).fileAt? p = some id := hp
    rw [Tree.readText_eq_error_iff hp, Tree.readText_eq_error_iff hp', htext]

/-- A file that is not to be updated has the bytes of its abridged text. -/
theorem abridgedBytes_of_not_updated (hp : t.fileAt? p = some id) (h : (entryOf o t p).outcome ≠ .updated) :
    abridgedBytes o (t.contents id) = t.contents id := by
  cases htext : Text.ofBytes? (t.contents id) with
  | none => exact abridgedBytes_of_no_text htext
  | some text =>
    refine (abridgedBytes_eq_self_iff htext).mpr (by_contra fun hne => h ?_)
    exact updated_outcomeOf_iff.mpr ⟨text, (Tree.readText_eq_ok_iff hp).mpr htext, hne⟩

/-- What is to be updated after files were abridged was so before. -/
theorem updated_of_abridged (ids : List FileId) (h : (entryOf o (abridged o t ids) p).outcome = .updated) :
    (entryOf o t p).outcome = .updated := by
  by_contra hnot
  rw [entryOf, readText_abridged ids fun id hp _ => abridgedBytes_of_not_updated hp hnot] at h
  exact hnot h

/-- Abridging the file of a path is all that the path does. -/
theorem abridgeFile_tree (o : Options) (t : Tree) (p : Path) :
    (abridgeFile o false t p).2 = abridged o t (t.fileAt? p).toList := by
  cases hp : t.fileAt? p with
  | none =>
    obtain ⟨fault, hfault⟩ := Tree.exists_fault_of_fileAt? hp
    rw [abridgeFile, hfault]
    rfl
  | some id =>
    rw [Option.toList_some, abridged_singleton, abridgeFile, Tree.readText_of_fileAt? hp]
    cases htext : Text.ofBytes? (t.contents id) with
    | none =>
      rw [abridgedBytes_of_no_text htext, Tree.setContent_contents]
      rfl
    | some text =>
      rw [abridgedBytes_of_text htext]
      by_cases h : Snippet.abridge o text = text
      · simp only [Option.elim_some, if_pos h]
        rw [h, Text.bytes_of_ofBytes? htext, Tree.setContent_contents]
      · simp only [Option.elim_some, if_neg h, Bool.false_eq_true, if_false]
        rw [Tree.writeText, Tree.writeBytes_of_fileAt? hp]

end Abridged

/-! ### All files -/

section Files
variable {o : Options} {t : Tree} {ps : List Path}

theorem entries_run_cons {σ : Type} (handle : σ → Path → Attempt × σ) (s : σ) (p : Path) (ps : List Path) :
    (run handle s (p :: ps)).report.entries =
      ⟨p, (handle s p).1.outcome⟩ :: (run handle (handle s p).2 ps).report.entries := rfl

theorem state_run_cons {σ : Type} (handle : σ → Path → Attempt × σ) (s : σ) (p : Path) (ps : List Path) :
    (run handle s (p :: ps)).state = (run handle (handle s p).2 ps).state := rfl

theorem paths_run {σ : Type} (handle : σ → Path → Attempt × σ) (s : σ) (ps : List Path) :
    (run handle s ps).report.entries.map (·.path) = ps := by
  induction ps generalizing s with
  | nil => rfl
  | cons p ps ih => rw [entries_run_cons, List.map_cons, ih]

/-- In a dry run each file is reported by itself and the tree stays. -/
theorem abridgeFiles_dry (o : Options) (t : Tree) (ps : List Path) :
    (abridgeFiles o true t ps).report.entries = ps.map (entryOf o t) ∧ (abridgeFiles o true t ps).state = t := by
  induction ps with
  | nil => exact ⟨rfl, rfl⟩
  | cons p ps ih =>
    rw [abridgeFiles, entries_run_cons, state_run_cons, outcome_abridgeFile, abridgeFile_dry]
    exact ⟨congrArg (entryOf o t p :: ·) ih.1, ih.2⟩

theorem entries_abridgeFiles_cons (o : Options) (t : Tree) (p : Path) (ps : List Path) :
    (abridgeFiles o false t (p :: ps)).report.entries =
      entryOf o t p :: (abridgeFiles o false (abridged o t (t.fileAt? p).toList) ps).report.entries := by
  rw [abridgeFiles, entries_run_cons, outcome_abridgeFile, abridgeFile_tree]
  rfl

/-- A batch abridges the file of each path. -/
theorem state_abridgeFiles (o : Options) (t : Tree) (ps : List Path) :
    (abridgeFiles o false t ps).state = abridged o t (ps.filterMap t.fileAt?) := by
  induction ps generalizing t with
  | nil => rfl
  | cons p ps ih =>
    have hsplit : (p :: ps).filterMap t.fileAt? = (t.fileAt? p).toList ++ ps.filterMap t.fileAt? := by
      cases hp : t.fileAt? p <;> simp [hp]
    rw [abridgeFiles, state_run_cons, abridgeFile_tree, hsplit, ← abridged_abridged]
    exact ih (abridged o t (t.fileAt? p).toList)

/-- Two of these paths lead to one file only if that file stays when it is abridged. -/
def Apart (o : Options) (t : Tree) (ps : List Path) : Prop :=
  ps.Pairwise fun p q =>
    ∀ id, t.fileAt? p = some id → t.fileAt? q = some id → abridgedBytes o (t.contents id) = t.contents id

theorem apart_of_nodup (o : Options) (h : (ps.filterMap t.fileAt?).Nodup) : Apart o t ps :=
  (List.pairwise_filterMap.mp h).imp fun hne id hp hq => absurd rfl (hne id hp id hq)

theorem Apart.abridged (h : Apart o t ps) (ids : List FileId) : Apart o (abridged o t ids) ps := by
  refine List.Pairwise.imp (fun hpq id hp hq => ?_) h
  have hid := hpq id hp hq
  rw [contents_abridged hid, hid]

/-- Paths of different files are reported as the tree is at first. -/
theorem entries_abridgeFiles (h : Apart o t ps) :
    (abridgeFiles o false t ps).report.entries = ps.map (entryOf o t) := by
  induction ps generalizing t with
  | nil => rfl
  | cons p ps ih =>
    obtain ⟨hp, hps⟩ := List.pairwise_cons.mp h
    -- The rest of the batch starts from a tree that differs in the first file at most.
    have hrest : ps.map (entryOf o (abridged o t (t.fileAt? p).toList)) = ps.map (entryOf o t) := by
      refine List.map_congr_left fun q hq => congrArg (fun r => Entry.mk q (outcomeOf o q r)) ?_
      exact readText_abridged _ fun id hid hmem => hp q hq id (Option.mem_toList.mp hmem) hid
    rw [entries_abridgeFiles_cons, ih (Apart.abridged hps _), hrest, List.map_cons]

/-- Whatever the paths lead to, those fail that fail at first. -/
theorem failed_abridgeFiles (o : Options) (t : Tree) (ps : List Path) :
    (abridgeFiles o false t ps).report.failed = (⟨ps.map (entryOf o t)⟩ : Report).failed := by
  simp only [Report.failed]
  induction ps generalizing t with
  | nil => rfl
  | cons p ps ih =>
    rw [entries_abridgeFiles_cons, List.map_cons, List.countP_cons, List.countP_cons, ih]
    congr 1
    rw [List.countP_map, List.countP_map]
    refine List.countP_congr fun q _ => ?_
    exact (failed_entryOf_iff _ q).trans ((readText_abridged_eq_error_iff _).trans (failed_entryOf_iff t q).symm)

/-- Whatever the paths lead to, no more are updated than at first. -/
theorem updated_abridgeFiles_le (o : Options) (t : Tree) (ps : List Path) :
    (abridgeFiles o false t ps).report.updated ≤ (⟨ps.map (entryOf o t)⟩ : Report).updated := by
  simp only [Report.updated]
  induction ps generalizing t with
  | nil => exact Nat.le_refl _
  | cons p ps ih =>
    rw [entries_abridgeFiles_cons, List.map_cons, List.countP_cons, List.countP_cons]
    refine Nat.add_le_add_right (Nat.le_trans (ih _) ?_) _
    rw [List.countP_map, List.countP_map]
    refine List.countP_mono_left fun q _ hq => ?_
    simp only [Function.comp_apply, decide_eq_true_eq] at hq ⊢
    exact updated_of_abridged _ hq

end Files

/-! ### Different files -/

/-- Every file has one of the three outcomes. -/
theorem updated_add_unchanged_add_failed (r : Report) : r.updated + r.unchanged + r.failed = r.total := by
  obtain ⟨entries⟩ := r
  simp only [Report.updated, Report.unchanged, Report.failed, Report.total]
  induction entries with
  | nil => rfl
  | cons e entries ih =>
    obtain ⟨path, outcome⟩ := e
    simp only [List.countP_cons, List.length_cons]
    cases outcome <;> simp <;> omega

/-- What a batch over the files that `ps` lead to has to report and to leave behind. -/
structure Accounts (o : Options) (t : Tree) (ps : List Path) (r : Result Tree) : Prop where
  paths : r.report.entries.map (·.path) = ps
  failed : ∀ e ∈ r.report.entries, ∀ id, t.fileAt? e.path = some id →
    ((∃ reason, e.outcome = .failed reason) ↔ Text.ofBytes? (t.contents id) = none)
  updated : ∀ e ∈ r.report.entries, ∀ id, t.fileAt? e.path = some id →
    (e.outcome = .updated ↔ ∃ text, Text.ofBytes? (t.contents id) = some text ∧ Snippet.abridge o text ≠ text)
  unchanged : ∀ e ∈ r.report.entries, ∀ id, t.fileAt? e.path = some id →
    (e.outcome = .unchanged ↔ ∃ text, Text.ofBytes? (t.contents id) = some text ∧ Snippet.abridge o text = text)
  total : r.report.updated + r.report.unchanged + r.report.failed = r.report.total
  /-- An updated file holds its abridged text. -/
  written : ∀ e ∈ r.report.entries, e.outcome = .updated → ∀ id text,
    t.fileAt? e.path = some id → Text.ofBytes? (t.contents id) = some text →
    r.state.contents id = (Snippet.abridge o text).bytes
  /-- Any other file holds what it held. -/
  spared : ∀ id, (∀ e ∈ r.report.entries, e.outcome = .updated → t.fileAt? e.path ≠ some id) →
    r.state.contents id = t.contents id
  /-- No file, link or directory comes, goes or moves. -/
  entries : r.state.entries = t.entries
  cwd : r.state.cwd = t.cwd

section Different
variable {o : Options} {t : Tree} {ps : List Path}

theorem contents_abridged_of_nodup {ids : List FileId} (h : ids.Nodup) (id : FileId) :
    (abridged o t ids).contents id = if id ∈ ids then abridgedBytes o (t.contents id) else t.contents id := by
  have hcount : (abridged o t ids).contents id = (abridgedBytes o)^[ids.count id] (t.contents id) := rfl
  rw [hcount, h.count]
  split
  · rfl
  · rfl

theorem accounts_of_nodup (h : (ps.filterMap t.fileAt?).Nodup) : Accounts o t ps (abridgeFiles o false t ps) := by
  have hentries := entries_abridgeFiles (apart_of_nodup o h)
  have hstate := state_abridgeFiles o t ps
  have hentry : ∀ {e}, e ∈ (abridgeFiles o false t ps).report.entries → e.path ∈ ps ∧ e = entryOf o t e.path := by
    intro e he
    rw [hentries] at he
    obtain ⟨p, hp, rfl⟩ := List.mem_map.mp he
    exact ⟨hp, rfl⟩
  have houtcome : ∀ {e}, e ∈ (abridgeFiles o false t ps).report.entries →
      e.outcome = outcomeOf o e.path (t.readText e.path) := fun he => congrArg Entry.outcome (hentry he).2
  constructor
  case paths => exact paths_run _ t ps
  case failed =>
    intro e he id hp
    rw [houtcome he, failed_outcomeOf_iff, Tree.readText_eq_error_iff hp]
  case updated =>
    intro e he id hp
    simp only [houtcome he, updated_outcomeOf_iff, Tree.readText_eq_ok_iff hp]
  case unchanged =>
    intro e he id hp
    simp only [houtcome he, unchanged_outcomeOf_iff, Tree.readText_eq_ok_iff hp]
  case total => exact updated_add_unchanged_add_failed _
  case written =>
    intro e he _ id text hp htext
    have hmem : id ∈ ps.filterMap t.fileAt? := List.mem_filterMap.mpr ⟨e.path, (hentry he).1, hp⟩
    rw [hstate, contents_abridged_of_nodup h, if_pos hmem, abridgedBytes_of_text htext]
  case spared =>
    intro id hspared
    rw [hstate, contents_abridged_of_nodup h]
    split
    case isFalse => rfl
    case isTrue hmem =>
      -- The file is named but not updated, so what is written to it are the bytes that it has.
      obtain ⟨p, hp, hid⟩ := List.mem_filterMap.mp hmem
      have he : entryOf o t p ∈ (abridgeFiles o false t ps).report.entries := hentries ▸ List.mem_map_of_mem hp
      exact abridgedBytes_of_not_updated hid fun hupdated => hspared _ he hupdated hid
  case entries => rw [hstate, abridged]
  case cwd => rw [hstate, abridged]

/-- A batch over different files reports each by itself, abridges each in place and touches nothing else; in another
    order it comes to the same. -/
theorem abridgeFiles_isolated (o : Options) (t : Tree) (ps : List Path) (hps : (ps.filterMap t.fileAt?).Nodup) :
    Accounts o t ps (abridgeFiles o false t ps) ∧
      ∀ qs, qs.Perm ps →
        (abridgeFiles o false t qs).state = (abridgeFiles o false t ps).state ∧
          (abridgeFiles o false t qs).report.entries.map (·.path) = qs ∧
          (abridgeFiles o false t qs).report.entries.Perm (abridgeFiles o false t ps).report.entries := by
  refine ⟨accounts_of_nodup hps, fun qs hqs => ?_⟩
  have hids : (qs.filterMap t.fileAt?).Perm (ps.filterMap t.fileAt?) := hqs.filterMap _
  have hqs' := hids.nodup_iff.mpr hps
  refine ⟨?_, paths_run _ t qs, ?_⟩
  · simp only [state_abridgeFiles, abridged, hids.count_eq]
  · rw [entries_abridgeFiles (apart_of_nodup o hps), entries_abridgeFiles (apart_of_nodup o hqs')]
    exact hqs.map _

/-- Two files, one of them through a link and one that is no text, with a third one beside them. One of them has
    another name, which the paths do not use. -/
theorem abridgeFiles_isolated_link :
    let text : Text := ['p', 'a', 'c', 'k', 'a', 'g', 'e', ' ', 'm', 'a', 'i', 'n']
    let t : Tree :=
      { entries := .file ['a'] 0 (.link ['b'] ['d', '/', 'c'] (.dir ['d']
          (.file ['c'] 1 (.file ['e'] 2 (.file ['f'] 0 .empty))) .empty))
        contents := fun id => if id = 1 then [255] else text.bytes }
    let ps : List Path := [['b'], ['.', '/', 'a']]
    (ps.filterMap t.fileAt?).Nodup ∧ ps.filterMap t.fileAt? = [1, 0] ∧
      Accounts {} t ps (abridgeFiles {} false t ps) ∧
      (abridgeFiles {} false t [['.', '/', 'a'], ['b']]).state = (abridgeFiles {} false t ps).state := by
  intro text t ps
  have hids : ps.filterMap t.fileAt? = [1, 0] := by decide +kernel
  have hps : (ps.filterMap t.fileAt?).Nodup := by
    rw [hids]
    decide
  have h := abridgeFiles_isolated {} t ps hps
  exact ⟨hps, hids, h.1, (h.2 _ (List.Perm.swap _ _ _)).1⟩

end Different

end Abridge.Batch
