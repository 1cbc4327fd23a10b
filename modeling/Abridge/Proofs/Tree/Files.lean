import Abridge.Tree.Edit

/-! Files and the paths that lead to them. The files of a listing are what is at their places (`mem_files_iff`). Where
    a path leads does not depend on what the files hold, so who writes to one file changes what is read along
    the paths to that file and along no other (`readText_congr`). -/

namespace Abridge

/-! ### Listings -/

namespace Listing
variable {l : Listing} {n : Name} {p : Place}

/-- A file stands under a name of the listing. -/
theorem exists_name_of_mem_files {id : FileId} (h : (p, id) ∈ l.files) : ∃ n q, p = n :: q ∧ n ∈ l.names := by
  induction l generalizing p with
  | empty => simp [files] at h
  | file m d rest ih =>
    rw [files, List.mem_cons] at h
    rcases h with h | h
    · obtain ⟨rfl, -⟩ := Prod.mk.inj h
      exact ⟨m, [], rfl, List.mem_cons_self⟩
    · obtain ⟨n, q, rfl, hn⟩ := ih h
      exact ⟨n, q, rfl, List.mem_cons_of_mem _ hn⟩
  | link m target rest ih =>
    obtain ⟨n, q, rfl, hn⟩ := ih h
    exact ⟨n, q, rfl, List.mem_cons_of_mem _ hn⟩
  | dir m entries rest _ ih =>
    rw [files, List.mem_append] at h
    rcases h with h | h
    · obtain ⟨⟨q, id⟩, -, heq⟩ := List.mem_map.mp h
      obtain ⟨rfl, -⟩ := Prod.mk.inj heq
      exact ⟨m, q, rfl, List.mem_cons_self⟩
    · obtain ⟨n, q, rfl, hn⟩ := ih h
      exact ⟨n, q, rfl, List.mem_cons_of_mem _ hn⟩

/-- What is at a place is an entry itself or stands in a subdirectory. -/
theorem at?_cons_eq_some_iff {x : Node} :
    l.at? (n :: p) = some x ↔
      (p = [] ∧ l.find? n = some x) ∨ ∃ entries, l.find? n = some (.dir entries) ∧ entries.at? p = some x := by
  rw [at?]
  rcases l.find? n with _ | (id | target | entries)
  · simp
  · by_cases hp : p = [] <;> simp [hp]
  · by_cases hp : p = [] <;> simp [hp]
  · cases p with
    | nil => simp [at?]
    | cons m q => simp

theorem not_mem_files_of_not_mem {id : FileId} (h : n ∉ l.names) : (n :: p, id) ∉ l.files := by
  intro hmem
  obtain ⟨m, q, heq, hm⟩ := exists_name_of_mem_files hmem
  obtain ⟨rfl, -⟩ := List.cons.inj heq
  exact h hm

/-- The files of a listing are what is at their places. -/
theorem mem_files_iff {id : FileId} (hl : l.Distinct) : (p, id) ∈ l.files ↔ l.at? p = some (.file id) := by
  induction l generalizing p with
  | empty => cases p <;> simp [files, at?, find?]
  | file m d rest ih =>
    obtain ⟨hm, hrest⟩ := hl
    cases p with
    | nil => simp [files, at?, ih hrest]
    | cons n q =>
      rw [files, List.mem_cons]
      by_cases hmn : m = n
      · subst hmn
        rw [or_iff_left (not_mem_files_of_not_mem hm), at?_cons_eq_some_iff, find?, if_pos rfl]
        simp [eq_comm]
      · have hne : (n :: q, id) ≠ ([m], d) := fun h => hmn (List.cons.inj (Prod.mk.inj h).1).1.symm
        rw [or_iff_right hne, ih hrest, at?_cons_eq_some_iff, at?_cons_eq_some_iff, find?, if_neg hmn]
  | link m target rest ih =>
    obtain ⟨hm, hrest⟩ := hl
    cases p with
    | nil => simp [files, at?, ih hrest]
    | cons n q =>
      rw [files]
      by_cases hmn : m = n
      · subst hmn
        rw [iff_false_left (not_mem_files_of_not_mem hm), at?_cons_eq_some_iff, find?, if_pos rfl]
        simp
      · rw [ih hrest, at?_cons_eq_some_iff, at?_cons_eq_some_iff, find?, if_neg hmn]
  | dir m entries rest ihe ih =>
    obtain ⟨hm, hentries, hrest⟩ := hl
    cases p with
    | nil => simp [files, at?, ih hrest]
    | cons n q =>
      rw [files, List.mem_append]
      by_cases hmn : m = n
      · subst hmn
        rw [or_iff_left (not_mem_files_of_not_mem hm), at?_cons_eq_some_iff, find?, if_pos rfl]
        simp [ihe hentries]
      · have hne : (n :: q, id) ∉ entries.files.map fun f => (m :: f.1, f.2) := by
          intro h
          obtain ⟨f, -, hf⟩ := List.mem_map.mp h
          exact hmn (List.cons.inj (Prod.mk.inj hf).1).1
        rw [or_iff_right hne, ih hrest, at?_cons_eq_some_iff, at?_cons_eq_some_iff, find?, if_neg hmn]

end Listing

/-! ### Paths -/

namespace Tree
variable {t : Tree} {p : Path}

/-- The file that a path leads to. -/
def fileAt? (t : Tree) (p : Path) : Option FileId :=
  match t.resolve p with
  | .file _ id => some id
  | _ => none

theorem fileAt?_eq_some_iff {id : FileId} : t.fileAt? p = some id ↔ ∃ place, t.resolve p = .file place id := by
  rw [fileAt?]
  cases t.resolve p <;> simp

theorem readText_of_fileAt? {id : FileId} (h : t.fileAt? p = some id) :
    t.readText p = (Text.ofBytes? (t.contents id)).elim (.error .notText) .ok := by
  obtain ⟨place, hp⟩ := fileAt?_eq_some_iff.mp h
  rw [readText, readBytes, hp]
  dsimp only
  cases Text.ofBytes? (t.contents id) <;> rfl

theorem readText_eq_ok_iff {id : FileId} {text : Text} (h : t.fileAt? p = some id) :
    t.readText p = .ok text ↔ Text.ofBytes? (t.contents id) = some text := by
  rw [readText_of_fileAt? h]
  cases Text.ofBytes? (t.contents id) <;> simp

theorem readText_eq_error_iff {id : FileId} (h : t.fileAt? p = some id) :
    (∃ fault, t.readText p = .error fault) ↔ Text.ofBytes? (t.contents id) = none := by
  rw [readText_of_fileAt? h]
  cases Text.ofBytes? (t.contents id) <;> simp

theorem exists_fault_of_fileAt? (h : t.fileAt? p = none) : ∃ fault, t.readText p = .error fault := by
  rw [fileAt?] at h
  rw [readText, readBytes]
  cases hp : t.resolve p with
  | file place id => simp [hp] at h
  | directory place => exact ⟨.isDirectory, rfl⟩
  | missing place names => exact ⟨.notFound, rfl⟩
  | failed fault => exact ⟨fault, rfl⟩

/-- Other bytes in other files make no difference to whoever reads along a path. -/
theorem readText_congr {f : FileId → List Byte} (h : ∀ id, t.fileAt? p = some id → f id = t.contents id) :
    ({ t with contents := f } : Tree).readText p = t.readText p := by
  have hresolve : ({ t with contents := f } : Tree).resolve p = t.resolve p := rfl
  rw [readText, readText, readBytes, readBytes, hresolve]
  cases hp : t.resolve p with
  | file place id => simp only [h id (fileAt?_eq_some_iff.mpr ⟨place, hp⟩)]
  | directory place => rfl
  | missing place names => rfl
  | failed fault => rfl

theorem writeBytes_of_fileAt? {id : FileId} (h : t.fileAt? p = some id) (content : List Byte) :
    t.writeBytes p content = t.setContent id content := by
  obtain ⟨place, hp⟩ := fileAt?_eq_some_iff.mp h
  rw [writeBytes, hp]

/-- To write what a file holds changes nothing. -/
theorem setContent_contents (t : Tree) (id : FileId) : t.setContent id (t.contents id) = t := by
  have hsame : (fun other => if other = id then t.contents id else t.contents other) = t.contents := by
    funext other
    split
    case isTrue h => rw [h]
    case isFalse => rfl
  rw [setContent, hsame]

end Tree

end Abridge
