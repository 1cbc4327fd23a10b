import Abridge.Proofs.Snippet.Guarantees

/-! The order of the last two passes. Relabelling leaves a line with a brace as it is, so the cut document comes to a
    start of the relabelled one (`relabel_cut_prefix`), and the block of the entry function is at its end
    (`closed_relabel`). That is where the relabelled document is cut. -/

namespace Abridge.Snippet
open Package

section Order
variable {s : Code.Strategy} {t : Text} {b : Code.Block}

theorem relabelLine_of_brace {l : Line} (h : '}' ∈ l) : relabelLine sourceLabel targetLabel l = l := by
  refine relabelLine_eq_self simple_sourceLabel fun tail hd => ?_
  have hlabelled : Labelled l := ⟨sourceLabel, tail, Or.inl rfl, hd⟩
  exact hlabelled.not_mem (c := '}') (by decide) h

/-- What follows a brace has no influence on how what is in front of it is relabelled. -/
theorem relabel_concat_prefix (u v : Text) :
    relabel sourceLabel targetLabel (u ++ ['}']) <+: relabel sourceLabel targetLabel (u ++ '}' :: v) := by
  obtain ⟨ks, p, q, ls, hlines, hcut⟩ := Text.lines_append_cons (c := '}') (by decide) u v
  rw [relabel_eq simple_sourceLabel, relabel_eq simple_sourceLabel, hlines, hcut, List.map_append, List.map_append,
    List.map_singleton, List.map_cons, relabelLine_of_brace (by simp), relabelLine_of_brace (by simp)]
  exact Text.ofLines_prefix_ofLines _ _ ⟨q, by simp⟩

theorem relabel_cut_prefix (h : Code.scan s entryHeader t = .closed b) :
    relabel sourceLabel targetLabel (Code.cut s entryHeader t) <+: relabel sourceLabel targetLabel t := by
  obtain ⟨u, v, rfl, hlast, -⟩ := Code.scan_closed h
  rw [Code.cut_closed h hlast]
  exact relabel_concat_prefix u v

theorem exists_closed_relabel :
    (∃ b, Code.scan s entryHeader (relabel sourceLabel targetLabel t) = .closed b) ↔
      ∃ b, Code.scan s entryHeader t = .closed b := by
  have hkind := (scan_of_unnoticed (unnoticed_relabel s t)).1
  constructor
  · rintro ⟨b, hb⟩
    rw [hb] at hkind
    exact Code.Scan.exists_closed_of_kind hkind.symm
  · rintro ⟨b, hb⟩
    rw [hb] at hkind
    exact Code.Scan.exists_closed_of_kind hkind

/-- A block at the end of a document is at the end of the relabelled one, though it may be longer. -/
theorem closed_relabel (h : Code.scan s entryHeader t = .closed b) (hlast : b.last + 1 = t.byteSize) :
    ∃ b', Code.scan s entryHeader (relabel sourceLabel targetLabel t) = .closed b' ∧
      b'.last + 1 = (relabel sourceLabel targetLabel t).byteSize := by
  have hend : (Code.scan s entryHeader t).EndsAt t.byteSize := by
    intro k hk
    rw [h, Code.Scan.closed.injEq] at hk
    rw [← hk, hlast]
  obtain ⟨b', hb'⟩ := exists_closed_relabel.mpr ⟨b, h⟩
  exact ⟨b', hb', (scan_of_unnoticed (unnoticed_relabel s t)).2 hend b' hb'⟩

/-- A document that is relabelled and then cut behind its entry function is the one that is cut and then relabelled. -/
theorem relabel_cut (s : Code.Strategy) (t : Text) :
    relabel sourceLabel targetLabel (Code.cut s entryHeader t) =
      Code.cut s entryHeader (relabel sourceLabel targetLabel t) := by
  by_cases h : ∃ b, Code.scan s entryHeader t = .closed b
  · obtain ⟨b, hb⟩ := h
    have hcut : Code.scan s entryHeader (Code.cut s entryHeader t) = .closed b := (Code.scan_cut s entryHeader t).trans hb
    obtain ⟨b', hb', hlast⟩ := closed_relabel hcut (Code.last_cut hcut)
    obtain ⟨w, hw⟩ := relabel_cut_prefix hb
    rw [← hw, Code.cut_append hb' hlast]
  · have hrelabelled := mt exists_closed_relabel.mp h
    rw [Code.cut_eq_self fun b hb => h ⟨b, hb⟩, Code.cut_eq_self fun b hb => hrelabelled ⟨b, hb⟩]

end Order

end Abridge.Snippet
