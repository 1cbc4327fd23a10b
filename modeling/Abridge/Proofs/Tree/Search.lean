import Abridge.Proofs.Tree.Descent

/-! What a search finds. It comes by each name of a wanted file once, and by nothing else (`discover_perm`). The path
    that it gives leads to the file of that name, if only it is short enough (`fileAt?_found`), so two of the
    paths lead to one file just where that file has two names. -/

namespace Abridge

namespace Listing
variable {l : Listing} {root : Path} {suffix : Text} {recursive : Bool}

/-- The files that a search under `root` comes by, with the paths by which it does. -/
def found (l : Listing) (root : Path) (suffix : Text) (recursive : Bool) : List (Path × FileId) :=
  (l.files.filter fun f => wanted suffix recursive f.1 && withinReach root f.1).map fun f => (Path.extend root f.1, f.2)

/-- Below a directory whose path is written with a slash at its end and is short enough, a file that stands alone and
    ends in the suffix is found. -/
theorem found_file {n : Name} (hslash : root.getLast? = some '/') (hshort : Text.byteSize root < pathLimit)
    (hn : '/' ∉ n) (hsuffix : Text.endsIn n suffix = true) (id : FileId) (recursive : Bool) :
    (file n id empty).found root suffix recursive = [(root ++ n, id)] := by
  have hfiles : (file n id empty).files = [([n], id)] := rfl
  have hwanted : wanted suffix recursive [n] = true := by simp [wanted, hsuffix]
  have hreach : withinReach root [n] = true := decide_eq_true hshort
  have hextend : Path.extend root [n] = root ++ n := Path.join_of_slash hslash hn
  simp [found, hfiles, hwanted, hreach, hextend]

end Listing

namespace Tree
variable {t : Tree} {root : Path} {suffix : Text} {recursive : Bool} {l : Listing}

theorem exists_place_of_listing? (h : t.listing? root = some l) :
    ∃ d, t.resolve root = .directory d ∧ t.entries.at? d = some (.dir l) := by
  rw [listing?] at h
  cases hroot : t.resolve root with
  | directory d =>
    rw [hroot] at h
    dsimp only at h
    cases hat : t.entries.at? d with
    | none => simp [hat] at h
    | some x =>
      cases x with
      | dir entries =>
        obtain rfl : entries = l := by simpa [hat] using h
        exact ⟨d, rfl, hat⟩
      | file id => simp [hat] at h
      | link target => simp [hat] at h
  | file d id => simp [hroot] at h
  | missing d names => simp [hroot] at h
  | failed fault => simp [hroot] at h

theorem discover_eq (h : t.listing? root = some l) (suffix : Text) (recursive : Bool) :
    t.discover root suffix recursive =
      .ok (((l.search suffix recursive).filter (withinReach root)).map (Path.extend root)) := by
  rw [discover, h]

/-- The paths that a search gives are those of the files that it comes by. -/
theorem discover_perm (h : t.listing? root = some l) (suffix : Text) (recursive : Bool) :
    ∃ ps, t.discover root suffix recursive = .ok ps ∧ ps.Perm ((l.found root suffix recursive).map (·.1)) := by
  refine ⟨_, discover_eq h suffix recursive, ?_⟩
  refine (((List.mergeSort_perm _ _).filter _).map _).trans (List.Perm.of_eq ?_)
  rw [Listing.found, List.filter_filter, List.filter_map, List.map_map, List.map_map]
  congr 2
  funext f
  simp [Bool.and_comm]

section Found
variable (ht : t.entries.WellFormed) (h : t.listing? root = some l)
include ht h

/-- The path of a file under the search root leads to that file, unless it is too long. -/
theorem resolve_of_listing? : ∃ d, ∀ {p id}, (p, id) ∈ l.files →
    t.resolve (Path.extend root p) =
      if pathLimit ≤ Text.byteSize (Path.extend root p) then .failed .nameTooLong else .file (d ++ p) id := by
  obtain ⟨d, hroot, hd⟩ := exists_place_of_listing? h
  refine ⟨d, fun {p id} hp => ?_⟩
  have hl : l.WellFormed := (ht.at? hd).2 l rfl
  have hat := (Listing.mem_files_iff hl.distinct).mp hp
  obtain ⟨n, q, rfl, -⟩ := Listing.exists_name_of_mem_files hp
  exact resolve_extend ht hroot (List.cons_ne_nil n q) ((Listing.at?_append_of_dir hd _).trans hat)

section File
variable {f : Path × FileId} (hf : f ∈ l.found root suffix recursive)
include hf

theorem fileAt?_found : t.fileAt? f.1 = if pathLimit ≤ Text.byteSize f.1 then none else some f.2 := by
  obtain ⟨d, hresolve⟩ := resolve_of_listing? ht h
  obtain ⟨⟨p, id⟩, hp, rfl⟩ := List.mem_map.mp hf
  rw [fileAt?, hresolve (List.mem_filter.mp hp).1]
  by_cases hlong : pathLimit ≤ Text.byteSize (Path.extend root p)
  · simp only [hlong, if_true]
  · simp only [hlong, if_false]

theorem readText_found :
    t.readText f.1 =
      if pathLimit ≤ Text.byteSize f.1 then .error .nameTooLong
      else (Text.ofBytes? (t.contents f.2)).elim (.error .notText) .ok := by
  obtain ⟨d, hresolve⟩ := resolve_of_listing? ht h
  obtain ⟨⟨p, id⟩, hp, rfl⟩ := List.mem_map.mp hf
  have hp := hresolve (List.mem_filter.mp hp).1
  split
  case isTrue hlong => rw [readText, readBytes, hp, if_pos hlong]
  case isFalse hshort =>
    rw [if_neg hshort] at hp
    exact readText_of_fileAt? (fileAt?_eq_some_iff.mpr ⟨_, hp⟩)

end File

end Found

end Tree

end Abridge
