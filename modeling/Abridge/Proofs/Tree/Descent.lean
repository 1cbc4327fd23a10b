import Abridge.Discovery
import Abridge.Proofs.Tree.Files
import Mathlib.Data.List.Basic

/-! Going down from a directory. A walk over more steps goes on where the walk over the first ones ended
    (`follow_append`), and a way down that meets no link ends where it seems to (`advance_descent`). So the path from a
    directory to a file below it leads there, unless it is too long for the system (`resolve_extend`). A path of dots
    leads nowhere else (`resolve_staying`), so a path can be as long as one likes. -/

namespace Abridge

/-! ### Names -/

/-- What a file system takes for a name. -/
structure IsName (n : Name) : Prop where
  ne_nil : n ≠ []
  ne_here : n ≠ Path.here
  ne_above : n ≠ Path.above
  slash : '/' ∉ n
  nul : '\x00' ∉ n
  size : Text.byteSize n ≤ nameLimit

/-- All entries, those of subdirectories included, have names. -/
def Listing.Named : Listing → Prop
  | .empty => True
  | .file n _ rest | .link n _ rest => IsName n ∧ rest.Named
  | .dir n entries rest => IsName n ∧ entries.Named ∧ rest.Named

/-- The entries of a directory as a file system has them. -/
structure Listing.WellFormed (l : Listing) : Prop where
  distinct : l.Distinct
  named : l.Named

instance : DecidablePred IsName := fun n =>
  decidable_of_iff (n ≠ [] ∧ n ≠ Path.here ∧ n ≠ Path.above ∧ '/' ∉ n ∧ '\x00' ∉ n ∧ Text.byteSize n ≤ nameLimit)
    ⟨fun ⟨hnil, hhere, habove, hslash, hnul, hsize⟩ => ⟨hnil, hhere, habove, hslash, hnul, hsize⟩,
      fun h => ⟨h.ne_nil, h.ne_here, h.ne_above, h.slash, h.nul, h.size⟩⟩

namespace Listing

def decideDistinct : (l : Listing) → Decidable l.Distinct
  | .empty => isTrue trivial
  | .file _ _ rest | .link _ _ rest => @instDecidableAnd _ _ _ (decideDistinct rest)
  | .dir _ entries rest =>
    @instDecidableAnd _ _ _ (@instDecidableAnd _ _ (decideDistinct entries) (decideDistinct rest))

def decideNamed : (l : Listing) → Decidable l.Named
  | .empty => isTrue trivial
  | .file _ _ rest | .link _ _ rest => @instDecidableAnd _ _ _ (decideNamed rest)
  | .dir _ entries rest => @instDecidableAnd _ _ _ (@instDecidableAnd _ _ (decideNamed entries) (decideNamed rest))

instance : DecidablePred Listing.WellFormed := fun l =>
  have := decideDistinct l
  have := decideNamed l
  decidable_of_iff (l.Distinct ∧ l.Named) ⟨fun h => ⟨h.1, h.2⟩, fun h => ⟨h.distinct, h.named⟩⟩

variable {l : Listing} {p q : Place} {n : Name} {id : FileId}

theorem WellFormed.find? (hl : l.WellFormed) {x : Node} (h : l.find? n = some x) :
    IsName n ∧ ∀ entries, x = .dir entries → entries.WellFormed := by
  obtain ⟨hd, hn⟩ := hl
  induction l with
  | empty => cases h
  | file m id rest ih =>
    rw [Listing.find?] at h
    split at h
    case isTrue hm =>
      obtain rfl := Option.some.inj h
      exact ⟨hm ▸ hn.1, by simp⟩
    case isFalse => exact ih h hd.2 hn.2
  | link m target rest ih =>
    rw [Listing.find?] at h
    split at h
    case isTrue hm =>
      obtain rfl := Option.some.inj h
      exact ⟨hm ▸ hn.1, by simp⟩
    case isFalse => exact ih h hd.2 hn.2
  | dir m entries rest _ ih =>
    rw [Listing.find?] at h
    split at h
    case isTrue hm =>
      obtain rfl := Option.some.inj h
      refine ⟨hm ▸ hn.1, ?_⟩
      rintro _ ⟨⟩
      exact ⟨hd.2.1, hn.2.1⟩
    case isFalse => exact ih h hd.2.2 hn.2.2

/-! ### Places -/

/-- What is at a place is looked for in what is at the place above. -/
theorem at?_append (l : Listing) (p q : Place) (hq : q ≠ []) :
    l.at? (p ++ q) = (l.at? p).bind fun x => match x with | .dir entries => entries.at? q | _ => none := by
  induction p generalizing l with
  | nil => rfl
  | cons n p ih =>
    rw [List.cons_append, at?, at?]
    rcases l.find? n with _ | (id | target | entries)
    · rfl
    · by_cases hp : p = [] <;> simp [hp, hq]
    · by_cases hp : p = [] <;> simp [hp, hq]
    · exact ih entries

theorem at?_append_of_dir {entries : Listing} (h : l.at? p = some (.dir entries)) (q : Place) :
    l.at? (p ++ q) = entries.at? q := by
  cases q with
  | nil => rw [List.append_nil, h, at?]
  | cons n q => rw [at?_append _ _ _ (List.cons_ne_nil _ _), h, Option.bind_some]

/-- What stands above something is a directory. -/
theorem exists_dir_of_at? {x : Node} (hq : q ≠ []) (h : l.at? (p ++ q) = some x) :
    ∃ entries, l.at? p = some (.dir entries) := by
  rw [at?_append _ _ _ hq] at h
  obtain ⟨y, hy, hx⟩ := Option.bind_eq_some_iff.mp h
  cases y with
  | dir entries => exact ⟨entries, hy⟩
  | file id => cases hx
  | link target => cases hx

theorem WellFormed.at? (hl : l.WellFormed) {x : Node} (h : l.at? p = some x) :
    (∀ n ∈ p, IsName n) ∧ ∀ entries, x = .dir entries → entries.WellFormed := by
  induction p generalizing l with
  | nil =>
    obtain rfl := Option.some.inj h
    exact ⟨by simp, fun _ heq => Node.dir.inj heq ▸ hl⟩
  | cons n p ih =>
    obtain ⟨rfl, hx⟩ | ⟨entries, hdir, hx⟩ := at?_cons_eq_some_iff.mp h
    · exact ⟨by simpa using (hl.find? hx).1, (hl.find? hx).2⟩
    · obtain ⟨hn, hentries⟩ := hl.find? hdir
      obtain ⟨hp, hrest⟩ := ih (hentries entries rfl) hx
      exact ⟨List.forall_mem_cons.mpr ⟨hn, hp⟩, hrest⟩

/-! ### More steps -/

/-- Where one gets with so many links when more steps are to be taken at the end. -/
def goOn (l : Listing) (links : Nat) (steps : List Name) : Arrival → Arrival
  | .directory d => l.follow links d steps
  | .file d id => if steps = [] then .file d id else .failed .notDirectory
  | .missing d names => .missing d (names ++ steps)
  | .failed fault => .failed fault

theorem advance_append (l : Listing) (place : Place) (xs ys : List Name) :
    l.advance place (xs ++ ys) =
      match l.advance place xs with
      | .done (.directory d) => l.advance d ys
      | .done arrival => .done (l.goOn 0 ys arrival)
      | .link d target steps => .link d target (steps ++ ys) := by
  induction xs generalizing place with
  | nil => rfl
  | cons n xs ih =>
    rw [List.cons_append, advance, advance]
    split
    · exact ih place
    split
    · exact ih place.dropLast
    split
    · rfl
    rcases l.at? (place ++ [n]) with _ | (id | target | entries)
    · rfl
    · by_cases hx : xs = [] <;> by_cases hy : ys = [] <;> simp [hx, hy, goOn]
    · rfl
    · exact ih (place ++ [n])

theorem follow_append_of_done {place : Place} {xs : List Name} {arrival : Arrival}
    (h : l.advance place xs = .done arrival) (links : Nat) (ys : List Name) :
    l.follow links place (xs ++ ys) = l.goOn links ys (l.follow links place xs) := by
  have hxs : l.follow links place xs = arrival := by rw [follow, h]
  rw [hxs, follow, advance_append, h]
  cases arrival with
  | directory d => rw [goOn, follow]
  | file d id => rfl
  | missing d names => rfl
  | failed fault => rfl

/-- A walk over more steps goes on, with the links that are left, from where the first steps led. -/
theorem follow_append (l : Listing) (links : Nat) (place : Place) (xs ys : List Name) :
    ∃ left, l.follow links place (xs ++ ys) = l.goOn left ys (l.follow links place xs) := by
  induction links generalizing place xs with
  | zero =>
    cases h : l.advance place xs with
    | done arrival => exact ⟨0, follow_append_of_done h 0 ys⟩
    | link d target steps =>
      refine ⟨0, ?_⟩
      rw [follow, follow, advance_append, h]
      rfl
  | succ links ih =>
    cases h : l.advance place xs with
    | done arrival => exact ⟨links + 1, follow_append_of_done h _ ys⟩
    | link d target steps =>
      obtain ⟨left, hleft⟩ := ih (if Path.isAbsolute target then [] else d) (Path.steps target ++ steps)
      refine ⟨left, ?_⟩
      rw [follow, follow, advance_append, h, ← hleft, List.append_assoc]

/-- The step behind a last slash leads nowhere else. -/
theorem follow_of_slash {links : Nat} {place d : Place} {xs : List Name}
    (h : l.follow links place (xs ++ [[]]) = .directory d) : l.follow links place xs = .directory d := by
  obtain ⟨left, hleft⟩ := follow_append l links place xs [[]]
  rw [h] at hleft
  cases hxs : l.follow links place xs with
  | directory e =>
    rw [hxs, goOn, follow, advance, if_pos (Or.inl rfl), advance] at hleft
    rw [hleft]
  | file e id => simp [hxs, goOn] at hleft
  | missing e names => simp [hxs, goOn] at hleft
  | failed fault => simp [hxs, goOn] at hleft

/-- A way down over names leads to the file at its end. -/
theorem advance_descent {d : Place} (hp : p ≠ []) (hnames : ∀ n ∈ p, IsName n)
    (h : l.at? (d ++ p) = some (.file id)) : l.advance d p = .done (.file (d ++ p) id) := by
  induction p generalizing d with
  | nil => exact absurd rfl hp
  | cons n p ih =>
    obtain ⟨hn, hnames⟩ := List.forall_mem_cons.mp hnames
    rw [List.append_cons] at h ⊢
    rw [advance, if_neg (by simp [hn.ne_nil, hn.ne_here]), if_neg hn.ne_above, if_neg (Nat.not_lt.mpr hn.size)]
    by_cases hnil : p = []
    · subst hnil
      rw [List.append_nil] at h ⊢
      rw [h]
      rfl
    · obtain ⟨entries, hdir⟩ := exists_dir_of_at? hnil h
      rw [hdir]
      exact ih hnil hnames h

theorem follow_descent {links : Nat} {place d : Place} {xs : List Name}
    (hd : l.follow links place xs = .directory d) (hp : p ≠ []) (hnames : ∀ n ∈ p, IsName n)
    (h : l.at? (d ++ p) = some (.file id)) : l.follow links place (xs ++ p) = .file (d ++ p) id := by
  obtain ⟨left, hleft⟩ := follow_append l links place xs p
  rw [hleft, hd, goOn, follow, advance_descent hp hnames h]

end Listing

/-! ### Paths -/

namespace Path
variable {base : Path} {p : Place} {n : Name}

theorem isAbsolute_of_slash (hn : '/' ∉ n) : isAbsolute n = false := by
  cases n with
  | nil => rfl
  | cons c n => simpa [isAbsolute] using Ne.symm (List.ne_of_not_mem_cons hn)

theorem join_of_slash (h : base.getLast? = some '/') (hn : '/' ∉ n) : join base n = base ++ n := by
  simp [join, isAbsolute_of_slash hn, h]

theorem join_of_name (hb : base ≠ []) (h : base.getLast? ≠ some '/') (hn : '/' ∉ n) :
    join base n = base ++ '/' :: n := by
  simp [join, isAbsolute_of_slash hn, h, hb]

theorem getLast?_append_name (base : Path) (hn : IsName n) : (base ++ n).getLast? ≠ some '/' := by
  obtain ⟨m, c, rfl⟩ := List.eq_nil_or_concat n |>.resolve_left hn.ne_nil
  intro h
  have hc : c = '/' := by simpa using h
  exact hn.slash (by simp [hc])

theorem steps_append_name (base : Path) (hn : '/' ∉ n) : steps (base ++ '/' :: n) = steps base ++ [n] := by
  rw [steps, List.splitOn_append_cons_self, List.splitOn_eq_singleton hn, steps]

/-- From a path that does not end in a slash, each name is one more step. -/
theorem steps_extend (hb : base ≠ []) (hlast : base.getLast? ≠ some '/') (hnames : ∀ n ∈ p, IsName n) :
    steps (extend base p) = steps base ++ p := by
  induction p generalizing base with
  | nil => simp [extend]
  | cons n p ih =>
    obtain ⟨hn, hnames⟩ := List.forall_mem_cons.mp hnames
    have hjoin := join_of_name hb hlast hn.slash
    have hne : join base n ≠ [] := by simp [hjoin]
    have hlast' : (join base n).getLast? ≠ some '/' := by
      rw [hjoin, List.append_cons]
      exact getLast?_append_name _ hn
    have hext : extend base (n :: p) = extend (join base n) p := rfl
    rw [hext, ih hne hlast' hnames, hjoin, steps_append_name base hn.slash, List.append_assoc, List.singleton_append]

/-- The first name takes the place of the empty one behind a last slash. -/
theorem exists_steps_extend (hb : base ≠ []) :
    ∃ xs, (steps base = xs ∨ steps base = xs ++ [[]]) ∧
      ∀ p, p ≠ [] → (∀ n ∈ p, IsName n) → steps (extend base p) = xs ++ p := by
  by_cases hlast : base.getLast? = some '/'
  · obtain ⟨b, rfl⟩ := List.getLast?_eq_some_iff.mp hlast
    refine ⟨steps b, Or.inr (steps_append_name b (by simp)), fun p hp hnames => ?_⟩
    obtain ⟨n, p, rfl⟩ := List.exists_cons_of_ne_nil hp
    obtain ⟨hn, hnames⟩ := List.forall_mem_cons.mp hnames
    have hext : extend (b ++ ['/']) (n :: p) = extend (b ++ ['/'] ++ n) p :=
      congrArg (extend · p) (join_of_slash hlast hn.slash)
    rw [hext, steps_extend (by simp) (getLast?_append_name _ hn) hnames, List.append_assoc, List.singleton_append,
      steps_append_name b hn.slash, List.append_assoc, List.singleton_append]
  · exact ⟨steps base, Or.inl rfl, fun p _ hnames => steps_extend hb hlast hnames⟩

theorem exists_extend_eq_append (hb : base ≠ []) (hnames : ∀ n ∈ p, IsName n) : ∃ s, extend base p = base ++ s := by
  induction p generalizing base with
  | nil => exact ⟨[], (List.append_nil base).symm⟩
  | cons n p ih =>
    obtain ⟨hn, hnames⟩ := List.forall_mem_cons.mp hnames
    have hjoin : ∃ s, join base n = base ++ s := by
      by_cases hlast : base.getLast? = some '/'
      · exact ⟨n, join_of_slash hlast hn.slash⟩
      · exact ⟨'/' :: n, join_of_name hb hlast hn.slash⟩
    obtain ⟨s, hs⟩ := hjoin
    have hne : base ++ s ≠ [] := by simp [hb]
    obtain ⟨s', hs'⟩ := ih hne hnames
    have hext : extend base (n :: p) = extend (base ++ s) p := congrArg (extend · p) hs
    exact ⟨s ++ s', by rw [hext, hs', List.append_assoc]⟩

theorem nul_extend (hb : '\x00' ∉ base) (hnames : ∀ n ∈ p, IsName n) : '\x00' ∉ extend base p := by
  induction p generalizing base with
  | nil => exact hb
  | cons n p ih =>
    obtain ⟨hn, hnames⟩ := List.forall_mem_cons.mp hnames
    refine ih (?_ : '\x00' ∉ join base n) hnames
    rw [join]
    split
    · exact hn.nul
    split
    · simp [hb, hn.nul]
    · simp [hb, hn.nul]

end Path

namespace Tree
variable {t : Tree} {root : Path} {d p : Place} {id : FileId}

theorem resolve_eq_directory (h : t.resolve root = .directory d) :
    root ≠ [] ∧ '\x00' ∉ root ∧ t.walk (Path.isAbsolute root) (Path.steps root) = .directory d := by
  rw [resolve] at h
  split at h
  · cases h
  split at h
  · cases h
  split at h
  · cases h
  case isFalse hnul _ hne => exact ⟨hne, hnul, h⟩

/-- The path from a directory to a file below it leads to that file, unless it is too long. -/
theorem resolve_extend (ht : t.entries.WellFormed) (hroot : t.resolve root = .directory d) (hp : p ≠ [])
    (hat : t.entries.at? (d ++ p) = some (.file id)) :
    t.resolve (Path.extend root p) =
      if pathLimit ≤ Text.byteSize (Path.extend root p) then .failed .nameTooLong else .file (d ++ p) id := by
  obtain ⟨hne, hnul, hwalk⟩ := resolve_eq_directory hroot
  have hnames : ∀ n ∈ p, IsName n := fun n hn => (ht.at? hat).1 n (List.mem_append_right d hn)
  obtain ⟨xs, hxs, hext⟩ := Path.exists_steps_extend hne
  have hd : t.walk (Path.isAbsolute root) xs = .directory d := by
    rcases hxs with hxs | hxs
    · exact hxs ▸ hwalk
    · rw [hxs] at hwalk
      exact Listing.follow_of_slash hwalk
  obtain ⟨s, hs⟩ := Path.exists_extend_eq_append hne hnames
  have hstart : Path.extend root p ≠ [] := by simp [hs, hne]
  have habs : Path.isAbsolute (Path.extend root p) = Path.isAbsolute root := by
    rw [hs, Path.isAbsolute, Path.isAbsolute, List.head?_append_of_ne_nil _ hne]
  rw [resolve, if_neg (Path.nul_extend hnul hnames)]
  by_cases hlong : pathLimit ≤ Text.byteSize (Path.extend root p)
  · rw [if_pos hlong, if_pos hlong]
  · rw [if_neg hlong, if_neg hlong, if_neg hstart, habs, hext p hp hnames]
    exact Listing.follow_descent hd hp hnames hat

end Tree

/-! ### Staying -/

namespace Path

/-- A path that stays where it is. -/
def staying (n : Nat) : Path := (List.replicate n ['.', '/']).flatten

theorem staying_succ (n : Nat) : staying (n + 1) = ['.'] ++ '/' :: staying n := rfl

theorem byteSize_staying (n : Nat) : Text.byteSize (staying n) = 2 * n := by
  induction n with
  | zero => rfl
  | succ n ih =>
    have hstep : Text.byteSize (staying (n + 1)) = 1 + (1 + Text.byteSize (staying n)) := rfl
    rw [hstep, ih]
    omega

theorem nul_staying (n : Nat) : '\x00' ∉ staying n := by
  simp [staying]

theorem steps_staying (n : Nat) : steps (staying n) = List.replicate n here ++ [[]] := by
  induction n with
  | zero => rfl
  | succ n ih =>
    rw [staying_succ, steps, List.splitOn_append_cons_self, ← steps, ← steps, ih]
    rfl

theorem getLast?_staying (n : Nat) : (staying (n + 1)).getLast? = some '/' := by
  rw [staying, List.replicate_succ', List.flatten_concat, List.getLast?_append_cons]
  rfl

end Path

namespace Tree

theorem resolve_staying (t : Tree) {n : Nat} (hn : 2 * (n + 1) < pathLimit) :
    t.resolve (Path.staying (n + 1)) = .directory t.cwd := by
  have hadvance : ∀ n, t.entries.advance t.cwd (List.replicate n Path.here ++ [[]]) = .done (.directory t.cwd) := by
    intro n
    induction n with
    | zero => rfl
    | succ n ih =>
      rw [List.replicate_succ, List.cons_append, Listing.advance, if_pos (Or.inr rfl), ih]
  have hshort : ¬pathLimit ≤ Text.byteSize (Path.staying (n + 1)) := by
    rw [Path.byteSize_staying]
    exact Nat.not_le.mpr hn
  have hne : Path.staying (n + 1) ≠ [] := List.cons_ne_nil _ _
  have hrelative : Path.isAbsolute (Path.staying (n + 1)) = false := rfl
  rw [resolve, if_neg (Path.nul_staying _), if_neg hshort, if_neg hne, hrelative, Path.steps_staying, walk,
    Listing.follow, if_neg Bool.false_ne_true, hadvance]

end Tree

end Abridge
