import Abridge.Proofs.Snippet.Guarantees

/-! What follows the entry function. Where the filter is done with a snippet and the entry function ends in it,
    lines that are added behind it change nothing: the filter keeps what it kept, and nothing of what it may
    keep of the new lines comes in front of the brace at which the snippet is cut. -/

namespace Abridge.Snippet

/-- Lines behind a snippet whose entry function ends do not influence the result. -/
theorem abridge_append_newline (o : Options) (c s : Text)
    (hmode : ∀ b, (Noise.Filter.steps Noise.Rule.table {} c.lines).mode ≠ .comment b)
    (htitle : Noise.isBannerTitle (c.lines.getLast (Text.lines_ne_nil c)) = false)
    (hclosed : ∃ b, Code.scan o.strategy entryHeader (Noise.clean c) = .closed b) :
    abridge o (c ++ '\n' :: s) = abridge o c := by
  have hfinished : Noise.Finished c.lines := by
    refine ⟨hmode, fun l hl => ?_⟩
    rw [List.getLast?_eq_some_getLast (Text.lines_ne_nil c), Option.mem_some_iff] at hl
    exact hl ▸ htitle
  obtain ⟨b, hb⟩ := hclosed
  obtain ⟨u, v, huv, hlast, hkeep⟩ := Code.scan_closed hb
  obtain ⟨w, hw⟩ := Noise.clean_append_newline (s := s) hfinished (by decide) huv
  have hcore : core o (c ++ '\n' :: s) = core o c := by
    rw [huv] at hb
    rw [core, core, huv, hw, Code.cut_closed hb hlast, Code.cut_closed (hkeep w) hlast]
  rw [abridge, abridge, hcore]

/-- An entry function with the heading of an example and a block of commentary behind it. -/
theorem abridge_append_newline_commentary :
    let c : Text := ['f', 'u', 'n', 'c', ' ', 'm', 'a', 'i', 'n', '(', ')', ' ', '{', '\n', '}']
    let s : Text := ['/', '/', ' ', 'E', 'x', 'a', 'm', 'p', 'l', 'e', '\n', '/', '*', ' ', '{']
    ((∀ b, (Noise.Filter.steps Noise.Rule.table {} c.lines).mode ≠ .comment b) ∧
        Noise.isBannerTitle (c.lines.getLast (Text.lines_ne_nil c)) = false ∧
        ∃ b, Code.scan .lexical entryHeader (Noise.clean c) = .closed b) ∧
      abridge {} (c ++ '\n' :: s) = abridge {} c := by
  intro c s
  have hreading : (Noise.Filter.steps Noise.Rule.table {} c.lines).mode = .reading .outside := by decide +kernel
  have hmode : ∀ b, (Noise.Filter.steps Noise.Rule.table {} c.lines).mode ≠ .comment b := by
    intro b hb
    rw [hreading] at hb
    cases hb
  have htitle : Noise.isBannerTitle (c.lines.getLast (Text.lines_ne_nil c)) = false := by decide +kernel
  have hclosed : ∃ b, Code.scan .lexical entryHeader (Noise.clean c) = .closed b := ⟨⟨0, 14⟩, by decide +kernel⟩
  exact ⟨⟨hmode, htitle, hclosed⟩, abridge_append_newline {} c s hmode htitle hclosed⟩

end Abridge.Snippet
