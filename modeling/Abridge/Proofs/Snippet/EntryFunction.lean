import Abridge.Proofs.Code.Balance
import Abridge.Proofs.Code.Masking
import Abridge.Proofs.Snippet.Labels

/-! The entry function. Its header is a word of plain bytes with one brace, so the search that sees code alone is the
    one that sees all bytes, in a document where all else is masked (`scan_eq_scan_mask`). And the block that it
    opens is balanced and is read in the document as it is read alone (`entryFunction_alone`). -/

namespace Abridge.Snippet

theorem plain_entryHeader : ∀ b ∈ entryHeader.bytes, Code.Mark.isPlain b = true := List.all_eq_true.mp (by decide)

theorem newline_entryHeader : Code.Mark.newline ∉ entryHeader.bytes := by decide

/-- The search that sees code alone finds the entry function where the search that sees all bytes finds it in the
    document with a hash in place of each byte that is no code. Both find the same in a document in which all
    braces are code, and all headers begin in code. -/
theorem scan_eq_scan_mask (t : Text) :
    (Code.mask t).bytes =
        List.zipWith (fun b c => if c = .code then b else Code.Mark.hash) t.bytes (Code.contexts t) ∧
      Code.scan .lexical entryHeader t = Code.scan .naive entryHeader (Code.mask t) ∧
      ((∀ i < t.byteSize, (t.bytes[i]? = some Code.Mark.openBrace ∨ t.bytes[i]? = some Code.Mark.closeBrace ∨
          entryHeader.bytes <+: t.bytes.drop i) → (Code.contexts t)[i]? = some .code) →
        Code.scan .lexical entryHeader t = Code.scan .naive entryHeader t) := by
  have hplain := plain_entryHeader
  have hn := newline_entryHeader
  rw [bytes_entryHeader] at hplain hn
  have hf : headerStart ∉ entryHeader.bytes.tail := by decide
  have hhash : Code.Mark.hash ∉ headerStart :: entryHeader.bytes.tail := by decide
  refine ⟨Code.bytes_mask t, ?_, Code.scan_of_code bytes_entryHeader hf⟩
  exact Code.scan_mask bytes_entryHeader hf hplain hn hhash t

/-- A remark in front of the entry function, with a quotation mark and a letter of two bytes. -/
theorem scan_eq_scan_mask_remark :
    let t : Text := ['/', '/', '"', 'é', '\n', 'f', 'u', 'n', 'c', ' ', 'm', 'a', 'i', 'n', '(', ')', ' ', '{', '}']
    (∀ i < t.byteSize, (t.bytes[i]? = some Code.Mark.openBrace ∨ t.bytes[i]? = some Code.Mark.closeBrace ∨
        entryHeader.bytes <+: t.bytes.drop i) → (Code.contexts t)[i]? = some .code) ∧
      Code.mask t ≠ t ∧ Code.scan .lexical entryHeader t = Code.scan .naive entryHeader t := by
  intro t
  have hcode : ∀ i < t.byteSize, (t.bytes[i]? = some Code.Mark.openBrace ∨ t.bytes[i]? = some Code.Mark.closeBrace ∨
      entryHeader.bytes <+: t.bytes.drop i) → (Code.contexts t)[i]? = some .code := by decide +kernel
  exact ⟨hcode, by decide +kernel, (scan_eq_scan_mask t).2.2 hcode⟩

/-- The block of the entry function, read alone. The search that sees code alone finds it to be code where it is code
    in the document. As many braces are closed in it as opened, and fewer in each start of it that holds the
    header but not the last brace; what is counted is what the search sees. -/
theorem entryFunction_alone (s : Code.Strategy) (t : Text) (b : Code.Block)
    (h : Code.scan s entryHeader t = .closed b) :
    ∃ u v w : Text, t = u ++ (v ++ w) ∧ u.byteSize = b.first ∧ u.byteSize + v.byteSize = b.last + 1 ∧
      entryHeader <+: v ∧
      (s = .lexical → Code.contexts v = ((Code.contexts t).drop b.first).take v.byteSize) ∧
      Code.openings (Code.marked s v) = Code.closings (Code.marked s v) ∧
      ∀ ps, ps <+: Code.marked s v → ps ≠ Code.marked s v → entryHeader.byteSize ≤ ps.length →
        Code.closings ps < Code.openings ps :=
  Code.scan_closed_alone bytes_entryHeader plain_entryHeader newline_entryHeader (by decide) (by decide) h

/-- A brace in a literal in front of the entry function, and another one in it. -/
theorem entryFunction_alone_literal :
    let t : Text := ['"', '}', '"', '\n', 'f', 'u', 'n', 'c', ' ', 'm', 'a', 'i', 'n', '(', ')', ' ', '{', '\'', '}', '\'',
      '}', '{']
    Code.scan .lexical entryHeader t = .closed ⟨4, 20⟩ ∧
      ∃ u v w : Text, t = u ++ (v ++ w) ∧ u.byteSize = 4 ∧ u.byteSize + v.byteSize = 20 + 1 ∧ entryHeader <+: v ∧
        (Code.Strategy.lexical = .lexical → Code.contexts v = ((Code.contexts t).drop 4).take v.byteSize) ∧
        Code.openings (Code.marked .lexical v) = Code.closings (Code.marked .lexical v) ∧
        ∀ ps, ps <+: Code.marked .lexical v → ps ≠ Code.marked .lexical v → entryHeader.byteSize ≤ ps.length →
          Code.closings ps < Code.openings ps := by
  intro t
  have hclosed : Code.scan .lexical entryHeader t = .closed ⟨4, 20⟩ := by decide +kernel
  exact ⟨hclosed, entryFunction_alone .lexical t ⟨4, 20⟩ hclosed⟩

end Abridge.Snippet
