import AtomicCss.Proofs.Style.Layout
import AtomicCss.Proofs.Style.Skim
set_option autoImplicit false

/-!
What a parser returns is in normal form: every piece is spelled the way the parser spells it, and is
skimmed to rest. Only the last statement of a text may leave parentheses open (`parse_isTidy`).
-/

namespace AtomicCss

/-- In normal form, and skimmed to rest. -/
structure Mark.Tidy (m : Mark) : Prop where
  normal : m.Normal
  skim : Scan.start.skim m.piece = some .start

/-- A statement that may stand at the end of a text, where parentheses need not be closed. -/
structure Node.Trails (n : Node) : Prop where
  leaf : n.hasBlock = false
  normal : (Mark.leaf n).Normal
  skim : ∃ depth, Scan.start.skim n.render = some ⟨.code, depth⟩

/-- The pieces of the nodes are tidy, but for the last statement. -/
inductive Node.IsTidy : List Node → Prop where
  | closed {nodes : List Node} : (∀ m ∈ marksAll nodes, m.Tidy) → IsTidy nodes
  | trails {nodes : List Node} {n : Node} : (∀ m ∈ marksAll nodes, m.Tidy) → n.Trails →
      IsTidy (nodes ++ [n])

theorem tidy_ofStatement {t : Text} {n : Node} {depth : Nat} (ht : Text.trim t = t)
    (hskim : Scan.start.skim t = some ⟨.code, depth⟩) (h : Node.ofStatement t = .ok n) :
    (n.renameProperties propertyName).hasBlock = false ∧
      (Mark.leaf (n.renameProperties propertyName)).Normal ∧
      Scan.start.skim (n.renameProperties propertyName).render = some ⟨.code, depth⟩ := by
  unfold Node.ofStatement at h
  split at h
  next hat =>
    cases h
    exact ⟨rfl, isHeader_normalize hat, Scan.skim_normalize hskim rfl⟩
  next hat =>
    split at h
    · cases h
    next c value hvalue =>
      dsimp only at h
      split at h
      · cases h
      next hne =>
        cases h
        have hsplit := List.takeWhile_append_dropWhile (p := (· != ':')) (l := t)
        have hhead := List.head?_dropWhile_not (· != ':') t
        rw [hvalue] at hsplit hhead
        obtain rfl : c = ':' := by simpa using hhead
        rw [← hsplit] at hskim
        have hdeclaration := Scan.skim_declaration hskim rfl
        refine ⟨rfl, ⟨(isName_of_takeWhile ht (by simpa using hat) (by simpa using hne)).isProperty,
          Text.trim_trim value⟩, ?_⟩
        rw [Node.renameProperties, Node.render, Scan.skim_append,
          Scan.skims_start.skim_propertyName, ← Scan.skim_append]
        exact hdeclaration

theorem tidy_ofHead {t : Text} (ht : Text.trim t = t) (hne : t ≠ [])
    (hskim : Scan.start.skim t = some .start) : ((Mark.ofHead t).rename propertyName).Tidy := by
  unfold Mark.ofHead
  split
  next hat => exact ⟨isHeader_normalize hat, Scan.skim_normalize hskim rfl⟩
  next hat => exact ⟨⟨hne, ht, by simpa using hat⟩, hskim⟩

theorem tidy_closing : (Mark.closing.rename propertyName).Tidy := ⟨trivial, rfl⟩

theorem Leaves.tidy {t : Text} {c : Char} {ms : List Mark} (h : Leaves t c ms)
    (ht : Text.trim t = t) (hskim : Scan.start.skim t = some .start) :
    ∀ m ∈ ms, (m.rename propertyName).Tidy := by
  have hleaf : ∀ n, Node.ofStatement t = .ok n → ((Mark.leaf n).rename propertyName).Tidy := by
    intro n hn
    obtain ⟨_, hnormal, hrender⟩ := tidy_ofStatement ht hskim hn
    exact ⟨hnormal, hrender⟩
  cases h with
  | head hne => simpa using tidy_ofHead ht hne hskim
  | nothing => simp
  | statement _ hn => simpa using hleaf _ hn
  | close => simpa using tidy_closing
  | last _ hn => simpa using ⟨hleaf _ hn, tidy_closing⟩

namespace Reader

variable {r s : Reader} {c : Char} {t : Text}

theorem skim_pending (r : Reader) : Scan.start.skim r.pending.reverse = some r.scan.settled ↔
    Scan.start.skim r.read.reverse = some r.scan.settled := by
  rw [pending]
  split
  next hslash =>
    have hsettled : r.scan.settled = ⟨.code, r.depth⟩ :=
      Scan.settled_of_mode fun q hq => by cases hslash.symm.trans hq
    rw [hsettled, List.reverse_cons, Scan.skim_append]
    constructor
    · intro h
      obtain ⟨f, hf, h⟩ := Option.bind_eq_some_iff.1 h
      obtain ⟨g, hg, h⟩ := Option.bind_eq_some_iff.1 h
      cases h
      rw [hf, (Scan.skims_start.skim hf).skimStep_slash.1 hg]
    · intro h
      rw [h]
      rfl
  next => exact Iff.rfl

/-- All that has been read is tidy, and the statement so far is skimmed to where the reader is. -/
structure Tidy (r : Reader) : Prop where
  skim : Scan.start.skim r.read.reverse = some r.scan.settled
  marks : ∀ m ∈ r.marks, (m.rename propertyName).Tidy

theorem tidy_initial : initial.Tidy := ⟨rfl, by simp [initial, marks, Node.marksAll]⟩

theorem Tidy.skim_statement (hr : r.Tidy) (hmode : r.mode = .code ∨ r.mode = .slash) :
    Scan.start.skim r.statement = some ⟨.code, r.depth⟩ := by
  have hsettled : r.scan.settled = ⟨.code, r.depth⟩ :=
    Scan.settled_of_mode fun q hq => by
      rcases hmode with hmode | hmode <;> cases hmode.symm.trans hq
  exact Scan.skim_trim (hsettled ▸ r.skim_pending.2 hr.skim) rfl

theorem Tidy.step (hr : r.Tidy) (h : r.step c = .ok s) : s.Tidy := by
  rcases step_cases h with ⟨hscan, hcontinues⟩ | ⟨hrest, hc, hready, ms, hleaves, hmarks⟩ |
    ⟨hcomment, hidles, hmode, _⟩
  · refine ⟨s.skim_pending.1 ?_, hcontinues.marks ▸ hr.marks⟩
    rw [hcontinues.pending, List.reverse_append, List.reverse_reverse, Scan.skim_append,
      r.skim_pending.2 hr.skim]
    show (r.scan.settled.skimStep c).bind (·.skim []) = some s.scan.settled
    rw [Scan.skimStep_of_step hscan]
    rfl
  · refine ⟨?_, fun m hm => ?_⟩
    · rw [hready.scan_eq]
      exact Scan.skim_start_blank fun c hc => hready.blank c (List.mem_reverse.1 hc)
    · rw [hmarks] at hm
      obtain ⟨hdepth, hmode⟩ := Scan.atRest_iff.1 hrest
      have hstatement := hr.skim_statement hmode
      rw [show r.depth = 0 from hdepth] at hstatement
      rcases List.mem_append.1 hm with hm | hm
      · exact hr.marks m hm
      · exact hleaves.tidy (Text.trim_trim _) hstatement m hm
  · have hopen : ∀ q, r.mode ≠ .quoted q := by
      intro q hq
      rcases hcomment with hlive | ⟨hslash, _⟩
      · exact hlive (by simp [Scan.Live, scan, hq])
      · cases hslash.symm.trans hq
    obtain ⟨w, hw, hread⟩ := hidles.read
    refine ⟨?_, hidles.marks ▸ hr.marks⟩
    rw [hread, List.reverse_append, Scan.skim_append, hr.skim, Scan.settled_of_mode hopen,
      Scan.settled_of_mode hmode]
    show Scan.skim ⟨.code, r.depth⟩ w.reverse = some ⟨.code, s.depth⟩
    rw [hidles.depth]
    exact Scan.skim_blank (fun c hc => hw c (List.mem_reverse.1 hc)) r.depth

theorem Tidy.readAll (hr : r.Tidy) (h : r.readAll t = .ok s) : s.Tidy := by
  induction t generalizing r with
  | nil =>
    cases h
    exact hr
  | cons c t ih =>
    obtain ⟨u, hu, h⟩ := readAll_cons_ok h
    exact ih (hr.step hu) h

end Reader

theorem parse_isTidy {t : Text} {nodes : List Node} (h : parse t = .ok nodes) :
    Node.IsTidy nodes := by
  obtain ⟨written, hwritten, rfl⟩ := map_ok h
  obtain ⟨s, hs, hfinish⟩ := bind_ok hwritten
  have htidy := Reader.tidy_initial.readAll hs
  obtain ⟨hmode, houter, hnodes⟩ := Reader.finish_eq_ok.1 hfinish
  have hread : ∀ m ∈ Node.marksAll (Node.renamePropertiesAll propertyName s.nodes), m.Tidy := by
    rw [Node.marksAll_renameProperties]
    intro m hm
    obtain ⟨k, hk, rfl⟩ := List.mem_map.1 hm
    exact htidy.marks k (by simpa [Reader.marks, houter] using hk)
  rcases hnodes with ⟨_, rfl⟩ | ⟨_, n, hn, rfl⟩
  · exact .closed hread
  · obtain ⟨hleaf, hnormal, hskim⟩ :=
      tidy_ofStatement (Text.trim_trim _) (htidy.skim_statement hmode) hn
    rw [Node.renamePropertiesAll_eq_map, List.map_append, ← Node.renamePropertiesAll_eq_map]
    exact .trails hread ⟨hleaf, hnormal, _, hskim⟩

end AtomicCss
