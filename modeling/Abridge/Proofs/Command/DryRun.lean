import Abridge.Command.Run
import Abridge.Proofs.Batch.Isolation
import Abridge.Proofs.Command.Flags
import Abridge.Proofs.Tree.Search

/-! What a dry run tells about the real one. Both search the same tree and both fail for the same files, so their exit
    codes are the same, and the files that are found give it (`tallies_runSettings`). They report the same if the real
    run reads every file as it was at first, that is if no file that it changes is found under two names
    (`foretells_runSettings`). -/

namespace Abridge.Command

/-- The second run is what the first one, a dry run on this tree, lets expect, and says the same if the files are
    `apart`. -/
structure Foretells (t : Tree) (apart : Prop) (dry real : Transcript × Tree) : Prop where
  tree : dry.2 = t
  code : real.1.code = dry.1.code
  out : apart → real.1.out = dry.1.out.erase dryRunLine

/-! ### The files of a run -/

/-- The files that a run comes by, each under all names by which it does; none if the root is no directory. -/
def Settings.found (s : Settings) (t : Tree) : List (Path × FileId) :=
  match t.listing? s.root with
  | some l => l.found s.root s.suffix s.recursive
  | none => []

/-- A found file that cannot be read: the system takes no path of that length, or the bytes are no text. -/
def unreadable (t : Tree) (f : Path × FileId) : Bool :=
  pathLimit ≤ Text.byteSize f.1 || (Text.ofBytes? (t.contents f.2)).isNone

/-- A found file that can be read and is not the same after it was abridged. -/
def outdated (o : Options) (t : Tree) (f : Path × FileId) : Bool :=
  Text.byteSize f.1 < pathLimit && (Text.ofBytes? (t.contents f.2)).any fun text => Snippet.abridge o text ≠ text

/-- No file that is outdated is found under two names. -/
def SinglyNamed (s : Settings) (t : Tree) : Prop := (((s.found t).filter (outdated s.options t)).map (·.2)).Nodup

/-- The transcript counts these files, and so many of them as updated. -/
structure Tallies (t : Tree) (found : List (Path × FileId)) (updated : Nat) (r : Transcript) : Prop where
  code : r.code = if found.any (unreadable t) then 1 else 0
  summary : r.out.getLast? = some s!"✓ Successfully updated {updated}/{found.length} files"

section Found
variable {t : Tree} {s : Settings}

theorem found_of_listing {l : Listing} (h : t.listing? s.root = some l) :
    s.found t = l.found s.root s.suffix s.recursive := by
  rw [Settings.found, h]

variable (ht : t.entries.WellFormed) (hroot : (t.listing? s.root).isSome)

include hroot in
/-- The paths that the search gives are those of the files that the run comes by. -/
theorem discover_found :
    ∃ ps, t.discover s.root s.suffix s.recursive = .ok ps ∧ ps.Perm ((s.found t).map (·.1)) := by
  obtain ⟨l, h⟩ := Option.isSome_iff_exists.mp hroot
  rw [found_of_listing h]
  exact Tree.discover_perm h s.suffix s.recursive

variable {f : Path × FileId} (hf : f ∈ s.found t)
include ht hroot hf

theorem failed_found (o : Options) : (Batch.entryOf o t f.1).outcome matches .failed _ ↔ unreadable t f = true := by
  obtain ⟨l, h⟩ := Option.isSome_iff_exists.mp hroot
  refine (Batch.failed_entryOf_iff t f.1).trans ?_
  rw [Tree.readText_found ht h (found_of_listing h ▸ hf), unreadable]
  by_cases hlong : pathLimit ≤ Text.byteSize f.1
  · simp [hlong]
  · cases htext : Text.ofBytes? (t.contents f.2) <;> simp [hlong]

theorem updated_found (o : Options) : (Batch.entryOf o t f.1).outcome = .updated ↔ outdated o t f = true := by
  obtain ⟨l, h⟩ := Option.isSome_iff_exists.mp hroot
  rw [Batch.entryOf, Tree.readText_found ht h (found_of_listing h ▸ hf), outdated, Batch.updated_outcomeOf_iff]
  by_cases hlong : pathLimit ≤ Text.byteSize f.1
  · simp [hlong, Nat.not_lt.mpr hlong]
  · cases htext : Text.ofBytes? (t.contents f.2) with
    | none => simp [hlong]
    | some text => simp [hlong, Nat.lt_of_not_le hlong]

/-- The path of a found file leads to that file or nowhere. -/
theorem eq_of_fileAt? {id : FileId} (hid : t.fileAt? f.1 = some id) : id = f.2 := by
  obtain ⟨l, h⟩ := Option.isSome_iff_exists.mp hroot
  rw [Tree.fileAt?_found ht h (found_of_listing h ▸ hf)] at hid
  split at hid
  · cases hid
  · exact (Option.some.inj hid).symm

end Found

/-! ### Reports -/

section Report
variable {o : Options} {dryRun : Bool} {t : Tree} {ps : List Path}

/-- Whether a batch writes or not, it reports each file as it is at first, if it can. -/
theorem report_abridgeFiles (h : dryRun = true ∨ Batch.Apart o t ps) :
    (Batch.abridgeFiles o dryRun t ps).report = ⟨ps.map (Batch.entryOf o t)⟩ := by
  cases dryRun with
  | false => exact congrArg Batch.Report.mk (Batch.entries_abridgeFiles (h.resolve_left Bool.false_ne_true))
  | true => exact congrArg Batch.Report.mk (Batch.abridgeFiles_dry o t ps).1

/-- What is counted in a report on this tree is counted in the files that were found. -/
theorem countP_found {found : List (Path × FileId)} (hps : ps.Perm (found.map (·.1))) {counts : Batch.Entry → Bool}
    {as : Path × FileId → Bool} (has : ∀ f ∈ found, counts (Batch.entryOf o t f.1) = true ↔ as f = true) :
    (ps.map (Batch.entryOf o t)).countP counts = found.countP as := by
  rw [(hps.map _).countP_eq, List.map_map, List.countP_map]
  exact List.countP_congr has

variable {s : Settings} (hps : ps.Perm ((s.found t).map (·.1)))

include hps in
theorem total_report : (Batch.abridgeFiles o dryRun t ps).report.total = (s.found t).length := by
  have hpaths : (Batch.abridgeFiles o dryRun t ps).report.entries.map (·.path) = ps := Batch.paths_run _ t ps
  rw [Batch.Report.total, ← List.length_map (·.path), hpaths, hps.length_eq, List.length_map]

variable (ht : t.entries.WellFormed) (hroot : (t.listing? s.root).isSome)
include hps ht hroot

theorem failed_first : (⟨ps.map (Batch.entryOf o t)⟩ : Batch.Report).failed = (s.found t).countP (unreadable t) :=
  countP_found hps fun _ hf => failed_found ht hroot hf o

theorem updated_first : (⟨ps.map (Batch.entryOf o t)⟩ : Batch.Report).updated = (s.found t).countP (outdated o t) :=
  countP_found hps fun _ hf => decide_eq_true_iff.trans (updated_found ht hroot hf o)

theorem failed_report : (Batch.abridgeFiles o dryRun t ps).report.failed = (s.found t).countP (unreadable t) := by
  cases dryRun with
  | false => rw [Batch.failed_abridgeFiles, failed_first hps ht hroot]
  | true => rw [report_abridgeFiles (Or.inl rfl), failed_first hps ht hroot]

theorem isSuccess_report :
    (Batch.abridgeFiles o dryRun t ps).report.isSuccess = !(s.found t).any (unreadable t) := by
  rw [Batch.Report.isSuccess, failed_report hps ht hroot, Bool.eq_iff_iff]
  simp [List.countP_eq_zero]

theorem updated_report (h : dryRun = true ∨ Batch.Apart o t ps) :
    (Batch.abridgeFiles o dryRun t ps).report.updated = (s.found t).countP (outdated o t) := by
  rw [report_abridgeFiles h, updated_first hps ht hroot]

theorem updated_report_le :
    (Batch.abridgeFiles o dryRun t ps).report.updated ≤ (s.found t).countP (outdated o t) := by
  cases dryRun with
  | false =>
    rw [← updated_first hps ht hroot]
    exact Batch.updated_abridgeFiles_le o t ps
  | true => exact Nat.le_of_eq (updated_report hps ht hroot (Or.inl rfl))

/-- If no outdated file is found under two names, the paths of two names lead to a file that stays. -/
theorem apart_of_singlyNamed (h : SinglyNamed s t) : Batch.Apart s.options t ps := by
  have hstays : ∀ f ∈ s.found t, outdated s.options t f = false → ∀ id, t.fileAt? f.1 = some id →
      Batch.abridgedBytes s.options (t.contents id) = t.contents id := by
    intro f hf hcurrent id hid
    refine Batch.abridgedBytes_of_not_updated hid fun hupdated => ?_
    rw [updated_found ht hroot hf, hcurrent] at hupdated
    cases hupdated
  have hsymm : ∀ {p q : Path},
      (∀ id, t.fileAt? p = some id → t.fileAt? q = some id →
        Batch.abridgedBytes s.options (t.contents id) = t.contents id) →
      ∀ id, t.fileAt? q = some id → t.fileAt? p = some id →
        Batch.abridgedBytes s.options (t.contents id) = t.contents id := fun hpq id hq hp => hpq id hp hq
  rw [Batch.Apart, hps.pairwise_iff hsymm, List.pairwise_map]
  refine (List.pairwise_filter.mp (List.pairwise_map.mp h)).imp_of_mem fun {f g} hf hg hne id hfid hgid => ?_
  by_cases hfo : outdated s.options t f = true
  · by_cases hgo : outdated s.options t g = true
    · exact absurd ((eq_of_fileAt? ht hroot hf hfid).symm.trans (eq_of_fileAt? ht hroot hg hgid)) (hne hfo hgo)
    · exact hstays g hg (Bool.eq_false_iff.mpr hgo) id hgid
  · exact hstays f hf (Bool.eq_false_iff.mpr hfo) id hfid

end Report

/-! ### Runs -/

section Run
variable {t : Tree} {s : Settings}

theorem runSettings_of_discover {ps : List Path} (hps : t.discover s.root s.suffix s.recursive = .ok ps) (rank : Nat) :
    let result := Batch.abridgeFiles s.options s.dryRun t ps
    (runSettings s rank t).1.code = (if result.report.isSuccess then 0 else 1) ∧
      (runSettings s rank t).1.out = foundLine s ps.length :: (if s.dryRun then [dryRunLine] else []) ++
        result.report.entries.map Batch.Entry.line ++ ["", summaryLine result.report] ∧
      (runSettings s rank t).2 = result.state := by
  simp only [runSettings, hps]
  exact ⟨trivial, trivial, trivial⟩

theorem tallies_runSettings (ht : t.entries.WellFormed) (hroot : (t.listing? s.root).isSome) (rank : Nat) :
    ∃ updated ≤ (s.found t).countP (outdated s.options t),
      Tallies t (s.found t) updated (runSettings s rank t).1 ∧
        (s.dryRun = true ∨ SinglyNamed s t → updated = (s.found t).countP (outdated s.options t)) := by
  obtain ⟨ps, hps, hperm⟩ := discover_found hroot
  obtain ⟨hcode, hout, -⟩ := runSettings_of_discover hps rank
  refine ⟨_, updated_report_le hperm ht hroot, ⟨?code, ?summary⟩,
    fun h => updated_report hperm ht hroot (h.imp_right (apart_of_singlyNamed hperm ht hroot))⟩
  case code =>
    rw [hcode, isSuccess_report hperm ht hroot]
    cases (s.found t).any (unreadable t) <;> rfl
  case summary =>
    have hlast : ∀ xs x, (xs ++ ["", x]).getLast? = some x := by simp
    rw [hout, hlast]
    unfold summaryLine
    rw [total_report hperm]

theorem foundLine_ne_dryRunLine (s : Settings) (count : Nat) : foundLine s count ≠ dryRunLine := by
  intro h
  have hhead := congrArg (·.toList.head?) h
  simp [foundLine, dryRunLine, toString] at hhead

theorem erase_dryRunLine (s : Settings) (count : Nat) (out : List String) :
    (foundLine s count :: dryRunLine :: out).erase dryRunLine = foundLine s count :: out := by
  rw [List.erase_cons_tail (by simpa using foundLine_ne_dryRunLine s count), List.erase_cons_head]

theorem foretells_runSettings (ht : t.entries.WellFormed) (hs : s.dryRun = false) (rank : Nat) :
    Foretells t (SinglyNamed s t) (runSettings { s with dryRun := true } rank t) (runSettings s rank t) := by
  by_cases hroot : (t.listing? s.root).isSome
  · obtain ⟨ps, hps, hperm⟩ := discover_found hroot
    obtain ⟨-, hout, -⟩ := runSettings_of_discover hps rank
    obtain ⟨-, hout', hstate'⟩ := runSettings_of_discover (s := { s with dryRun := true }) hps rank
    constructor
    case tree => rw [hstate', (Batch.abridgeFiles_dry s.options t ps).2]
    case code =>
      obtain ⟨_, -, htallies, -⟩ := tallies_runSettings ht hroot rank
      obtain ⟨_, -, htallies', -⟩ := tallies_runSettings (s := { s with dryRun := true }) ht hroot rank
      exact htallies.code.trans htallies'.code.symm
    case out =>
      intro h
      have hapart := apart_of_singlyNamed hperm ht hroot h
      rw [hout, hout', hs, report_abridgeFiles (Or.inl rfl), report_abridgeFiles (Or.inr hapart)]
      simp only [Bool.false_eq_true, if_false, if_true, List.cons_append, List.nil_append]
      exact (erase_dryRunLine s ps.length _).symm
  · have hnone : t.listing? s.root = none := Option.not_isSome_iff_eq_none.mp hroot
    simp only [runSettings, Tree.discover, hnone]
    exact ⟨rfl, rfl, fun _ => rfl⟩

end Run

theorem line_unchanged_ne_updated (p : Path) :
    Batch.Entry.line ⟨p, .unchanged⟩ ≠ Batch.Entry.line ⟨p, .updated⟩ := by
  intro h
  have hhead := congrArg (·.toList.head?) h
  simp [Batch.Entry.line, toString] at hhead

/-! ### Requests -/

/-- The flag turns on its setting and leaves the others. -/
theorem ofArguments_of_adds {a b : Arguments} (h : Adds .dryRun a b) (env : Environment) (cwd : Path) :
    (Settings.ofArguments a env cwd).dryRun = false ∧
      Settings.ofArguments b env cwd = { Settings.ofArguments a env cwd with dryRun := true } := by
  constructor
  · simpa [Settings.ofArguments] using h.new
  · simp [Settings.ofArguments, h.root, h.suffix, h.flags]

/-- A dry run foretells the real run, wherever the flag stands; line by line if no outdated file is found under two
    names. If the root is a directory, both count the files that the search comes by. -/
theorem dry_run_foretells (env : Environment) (t : Tree) (xs ys : List Text) (ht : t.entries.WellFormed)
    (hxs : ['-', '-'] ∉ xs)
    (haccepted : ∀ cause, Request.ofArguments (xs ++ Flag.dryRun.argument :: ys) ≠ .misuse cause) :
    Foretells t
        (∀ a, Request.ofArguments (xs ++ ys) = .run a → SinglyNamed (Settings.ofArguments a env t.cwd.path) t)
        (run (xs ++ Flag.dryRun.argument :: ys) env t) (run (xs ++ ys) env t) ∧
      ∀ a, Request.ofArguments (xs ++ ys) = .run a →
        let s := Settings.ofArguments a env t.cwd.path
        (t.listing? s.root).isSome →
          let count := (s.found t).countP (outdated s.options t)
          (∃ ps, t.discover s.root s.suffix s.recursive = .ok ps ∧ ps.Perm ((s.found t).map (·.1))) ∧
            Tallies t (s.found t) count (run (xs ++ Flag.dryRun.argument :: ys) env t).1 ∧
            ∃ updated ≤ count, Tallies t (s.found t) updated (run (xs ++ ys) env t).1 ∧
              (SinglyNamed s t → updated = count) := by
  have hwith := Request.reads_with_flag .dryRun hxs ys
  unfold run
  generalize Request.ofArguments (xs ++ ys) = r, Request.ofArguments (xs ++ Flag.dryRun.argument :: ys) = r' at *
  cases hwith with
  | version => exact ⟨⟨rfl, rfl, fun _ => by simp [versionLine, dryRunLine]⟩, by simp⟩
  | help => exact ⟨⟨rfl, rfl, fun _ => (List.erase_of_not_mem (by simp [helpLines, dryRunLine])).symm⟩, by simp⟩
  | misuse => exact absurd rfl (haccepted _)
  | @run a b hadds =>
    obtain ⟨hreal, hdry⟩ := ofArguments_of_adds hadds env t.cwd.path
    simp only [hdry]
    have hforetells := foretells_runSettings ht hreal (shownRank env (Settings.ofArguments a env t.cwd.path).verbose)
    refine ⟨⟨hforetells.tree, hforetells.code, fun h => hforetells.out (h a rfl)⟩, ?_⟩
    rintro _ ⟨⟩ hroot
    refine ⟨discover_found hroot, ?_, ?_⟩
    · obtain ⟨updated, -, htallies, hupdated⟩ :=
        tallies_runSettings (s := { Settings.ofArguments a env t.cwd.path with dryRun := true }) ht hroot
          (shownRank env (Settings.ofArguments a env t.cwd.path).verbose)
      exact hupdated (Or.inl rfl) ▸ htallies
    · obtain ⟨updated, hle, htallies, hupdated⟩ := tallies_runSettings ht hroot _
      exact ⟨updated, hle, htallies, fun h => hupdated (Or.inr h)⟩

/-- A search below a directory that is named with a slash. It finds one file that is no text under two names. -/
theorem dry_run_foretells_below :
    let text : Text := ['p', 'a', 'c', 'k', 'a', 'g', 'e', ' ', 'm', 'a', 'i', 'n']
    let t : Tree :=
      { entries := .dir ['d'] (.file ['a', '.', 'g', 'o'] 0 (.file ['b', '.', 'g', 'o'] 1 (.dir ['s']
          (.file ['b', '.', 'g', 'o'] 1 .empty) .empty))) .empty
        contents := fun id => if id = 0 then text.bytes else [255] }
    let xs : List Text := [['-', '-', 's', 'u', 'f', 'f', 'i', 'x', '=', '.', 'g', 'o'], Flag.recursive.argument]
    let ys : List Text := [['d', '/']]
    let dry := run (xs ++ Flag.dryRun.argument :: ys) {} t
    let real := run (xs ++ ys) {} t
    (t.entries.WellFormed ∧ ['-', '-'] ∉ xs ∧
      ∀ cause, Request.ofArguments (xs ++ Flag.dryRun.argument :: ys) ≠ .misuse cause) ∧
    dry.2 = t ∧ real.1.code = dry.1.code ∧ real.1.out = dry.1.out.erase dryRunLine ∧ real.1.code = 1 := by
  intro text t xs ys dry real
  have ht : t.entries.WellFormed := by decide +kernel
  have hxs : ['-', '-'] ∉ xs := by decide +kernel
  have haccepted : ∀ cause, Request.ofArguments (xs ++ Flag.dryRun.argument :: ys) ≠ .misuse cause := by
    intro cause h
    cases h
  obtain ⟨hforetells, htallies⟩ := dry_run_foretells {} t xs ys ht hxs haccepted
  have happart : ∀ a, Request.ofArguments (xs ++ ys) = .run a →
      SinglyNamed (Settings.ofArguments a {} t.cwd.path) t := by
    rintro _ ⟨⟩
    unfold SinglyNamed
    decide +kernel
  refine ⟨⟨ht, hxs, haccepted⟩, hforetells.tree, hforetells.code, hforetells.out happart, ?_⟩
  obtain ⟨-, -, _, -, hreal, -⟩ := htallies _ rfl rfl
  exact hreal.code.trans (if_pos (by decide +kernel))

/-- A run on a root that is given as an argument fails if it comes by a file that cannot be read. -/
theorem code_run_root {t : Tree} {root : Path} {l : Listing} (ht : t.entries.WellFormed)
    (h : t.listing? root = some l) (hplain : Word.ofArgument root = .plain) :
    (run [root] {} t).1.code = if (l.found root defaultSuffix false).any (unreadable t) then 1 else 0 := by
  have hrequest : Request.ofArguments [root] = .run { root := some root } := by
    rw [Request.ofArguments, Request.read_plain hplain]
    rfl
  let s := Settings.ofArguments { root := some root } {} t.cwd.path
  have hroot : (t.listing? s.root).isSome := Option.isSome_of_eq_some h
  obtain ⟨_, -, htallies, -⟩ := tallies_runSettings (s := s) ht hroot (shownRank {} false)
  unfold run
  rw [hrequest]
  exact htallies.code.trans (found_of_listing (s := s) h ▸ rfl)

/-- What the files hold is not enough to foretell a run. A text may have a path that is too long, and then the run
    fails. And a file may have two names by both of which the search comes: under the second it is abridged already. -/
theorem dry_run_conditions_needed :
    let text : Text := ['p', 'a', 'c', 'k', 'a', 'g', 'e', ' ', 'm', 'a', 'i', 'n']
    let a : Name := ['a', '_', 'd', 'e', 't', 'a', 'i', 'l', 'e', 'd', '.', 'g', 'o']
    let b : Name := ['b', '_', 'd', 'e', 't', 'a', 'i', 'l', 'e', 'd', '.', 'g', 'o']
    let one : Tree := { entries := .file a 0 .empty, contents := fun _ => text.bytes }
    let two : Tree := { entries := .file a 0 (.file b 0 .empty), contents := fun _ => text.bytes }
    let root : Path := Path.staying 2047
    (one.discover root defaultSuffix false = .ok [root ++ a] ∧
      ¬((run [root] {} one).1.code = 1 ↔
        ∃ f ∈ one.entries.found root defaultSuffix false, Text.ofBytes? (one.contents f.2) = none)) ∧
    (two.discover ['/'] defaultSuffix false = .ok ['/' :: a, '/' :: b] ∧
      (run [] {} two).1.out ≠ (run [Flag.dryRun.argument] {} two).1.out.erase dryRunLine) := by
  intro text a b one two root
  refine ⟨?long, ?twice⟩
  case long =>
    have hsize : Text.byteSize root = 4094 := Path.byteSize_staying 2047
    have hslash : root.getLast? = some '/' := Path.getLast?_staying 2046
    have hplain : Word.ofArgument root = .plain := rfl
    have ht : one.entries.WellFormed := by decide +kernel
    have hlisting : one.listing? root = some one.entries := by
      rw [Tree.listing?, Tree.resolve_staying one (by decide)]
      rfl
    -- No more has to be known of the path than its length and its end.
    clear_value root
    have hfound : one.entries.found root defaultSuffix false = [(root ++ a, 0)] :=
      Listing.found_file hslash (hsize ▸ by decide) (by decide +kernel) (by decide +kernel) 0 false
    have hunreadable : unreadable one (root ++ a, 0) = true := by
      have hname : Text.byteSize a = 13 := by decide +kernel
      simp [unreadable, Text.byteSize_append, hsize, hname, pathLimit]
    have hcode : (run [root] {} one).1.code = 1 := by
      rw [code_run_root ht hlisting hplain, hfound, List.any_cons, hunreadable, Bool.true_or, if_pos rfl]
    refine ⟨?_, fun hforetold => ?_⟩
    · obtain ⟨ps, hps, hperm⟩ := Tree.discover_perm hlisting defaultSuffix false
      rw [hfound] at hperm
      rw [hps, List.perm_singleton.mp hperm]
    · obtain ⟨f, -, hnone⟩ := hforetold.mp hcode
      rw [Text.ofBytes?_bytes] at hnone
      cases hnone
  case twice =>
    have hlisting : two.listing? ['/'] = some two.entries := rfl
    have hwanted : (two.entries.files.map (·.1)).filter (wanted defaultSuffix false) = [[a], [b]] := by decide +kernel
    have hsearch : two.entries.search defaultSuffix false = [[a], [b]] := by
      rw [Listing.search, hwanted]
      exact List.mergeSort_of_pairwise (by decide +kernel)
    have hps : two.discover ['/'] defaultSuffix false = .ok ['/' :: a, '/' :: b] := by
      rw [Tree.discover_eq hlisting, hsearch]
      rfl
    let s : Settings := .ofArguments {} {} two.cwd.path
    let real := Batch.abridgeFiles {} false two ['/' :: a, '/' :: b]
    let dry := Batch.abridgeFiles {} true two ['/' :: a, '/' :: b]
    have hreal : real.report.entries = [⟨'/' :: a, .updated⟩, ⟨'/' :: b, .unchanged⟩] := by decide +kernel
    have hdry : dry.report.entries = [⟨'/' :: a, .updated⟩, ⟨'/' :: b, .updated⟩] := by decide +kernel
    have hrun : run [] {} two = runSettings s (shownRank {} false) two := rfl
    have hrun' : run [Flag.dryRun.argument] {} two =
        runSettings { s with dryRun := true } (shownRank {} false) two := rfl
    have hout : (run [] {} two).1.out =
        foundLine s 2 :: (real.report.entries.map Batch.Entry.line ++ ["", summaryLine real.report]) := by
      rw [hrun]
      exact (runSettings_of_discover (s := s) hps _).2.1
    have hout' : (run [Flag.dryRun.argument] {} two).1.out =
        foundLine s 2 :: dryRunLine :: (dry.report.entries.map Batch.Entry.line ++ ["", summaryLine dry.report]) := by
      rw [hrun']
      exact (runSettings_of_discover (s := { s with dryRun := true }) hps _).2.1
    refine ⟨hps, fun hsame => ?_⟩
    rw [hout, hout', erase_dryRunLine, hreal, hdry] at hsame
    -- The lines differ in the one about the second name.
    exact line_unchanged_ne_updated ('/' :: b) (List.cons.inj (List.cons.inj (List.cons.inj hsame).2).2).1

end Abridge.Command
