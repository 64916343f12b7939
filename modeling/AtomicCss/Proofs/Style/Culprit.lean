import AtomicCss.Proofs.Style.Cursor
import AtomicCss.Proofs.Style.Marks
import AtomicCss.Proofs.Style.Moves
import Mathlib.Data.List.Forall2
set_option autoImplicit false

/-!
Where syntax errors point.

A reader knows where the string, comment or block began that it is in, and where its statement
began; a cursor tells the same without a reader (`Reader.Tracks`). So an error names the place of
its cause: a brace that nothing closes or opens, a quote, or the beginning of a comment
(`parse_error_culprit`).
-/

namespace AtomicCss

namespace Position

theorem foldl_advance (p : Position) (t : Text) :
    p.line < (t.foldl advance p).line ∨
      (t.foldl advance p).line = p.line ∧ (t.foldl advance p).column = p.column + t.length := by
  induction t generalizing p with
  | nil => exact Or.inr ⟨rfl, rfl⟩
  | cons c t ih =>
    rw [List.foldl_cons, List.length_cons]
    by_cases hc : c = '\n'
    · have hnext : p.advance c = ⟨p.line + 1, 1⟩ := if_pos hc
      rw [hnext]
      have hlt : p.line < (⟨p.line + 1, 1⟩ : Position).line := Nat.lt_succ_self _
      rcases ih ⟨p.line + 1, 1⟩ with h | ⟨h, _⟩ <;> exact Or.inl (by omega)
    · have hnext : p.advance c = ⟨p.line, p.column + 1⟩ := if_neg hc
      rw [hnext]
      rcases ih ⟨p.line, p.column + 1⟩ with h | ⟨hline, hcolumn⟩
      · exact Or.inl h
      · exact Or.inr ⟨hline, hcolumn.trans (Nat.add_right_comm _ _ _)⟩

theorem eq_nil_of_after_append {u w : Text} (h : after (u ++ w) = after u) : w = [] := by
  have hfold : (after u).line < (after (u ++ w)).line ∨
      (after (u ++ w)).line = (after u).line ∧
        (after (u ++ w)).column = (after u).column + w.length := by
    rw [show after (u ++ w) = w.foldl advance (after u) from List.foldl_append]
    exact foldl_advance _ w
  rw [h] at hfold
  exact List.eq_nil_of_length_eq_zero (by omega)

theorem after_unique {t u v x y : Text} (h : t = u ++ v) (g : t = x ++ y)
    (heq : after u = after x) : x = u := by
  rcases List.append_eq_append_iff.1 (h.symm.trans g) with ⟨w, rfl, _⟩ | ⟨w, rfl, _⟩
  · rw [eq_nil_of_after_append heq.symm, List.append_nil]
  · rw [eq_nil_of_after_append heq, List.append_nil]

end Position

/-- In `t` the text `v` begins at `p`. -/
def At (t v : Text) (p : Position) : Prop := ∃ u, t = u ++ v ∧ p = Position.after u

theorem At.tail {t v : Text} {c : Char} {p : Position} (h : At t (c :: v) p) :
    At t v (p.advance c) := by
  obtain ⟨u, rfl, rfl⟩ := h
  exact ⟨u ++ [c], by simp, (Position.after_append_singleton u c).symm⟩

open Cursor (Reached)

/--
What a fault of `t = u ++ v` is about, when its position is that of `v`.

A statement without a meaning is reported where it begins, that is behind the character that ended
the statement or block before.
-/
def Culprit (t u v : Text) : SyntaxFault → Prop
  | .unclosedBlock =>
    v.head? = some '{' ∧ ∃ blocks depth, Reached t ⟨v :: blocks, depth, []⟩
  | .unexpectedClose =>
    v.head? = some '}' ∧ Reached t ⟨[], 0, v⟩ ∧ ∀ r, Reached t ⟨[], 0, '}' :: r⟩ → v = '}' :: r
  | .unclosedString =>
    ∃ q r blocks depth, v = q :: r ∧ isQuote q = true ∧ Reached t ⟨blocks, depth, v⟩ ∧
      ¬∃ s w, StringBody q s ∧ r = s ++ q :: w
  | .unclosedComment =>
    ∃ r blocks depth, v = '/' :: '*' :: r ∧ Reached t ⟨blocks, depth, v⟩ ∧ ¬['*', '/'] <:+: r
  | .missingSelector | .emptyProperty | .expectedDeclaration _ =>
    (∀ c, u.getLast? = some c → isTerminator c = true) ∧ ∃ blocks, Reached t ⟨blocks, 0, v⟩

/-- The position of the error is that of its culprit. -/
def Blames (t : Text) (e : SyntaxError) : Prop :=
  ∃ u v, t = u ++ v ∧ e.position = Position.after u ∧ Culprit t u v e.fault

theorem StringBody.append {q : Char} {s u : Text} (hs : StringBody q s) (hu : StringBody q u) :
    StringBody q (s ++ u) := by
  induction hs with
  | nil => exact hu
  | plain hne hback hline _ ih => exact .plain hne hback hline ih
  | escaped _ ih => exact .escaped ih

theorem StringBody.not_closed {q : Char} (hq : isQuote q = true) {s w : Text}
    (hs : StringBody q s) (hw : w = [] ∨ w = ['\\'] ∨ w.head? = some '\n') :
    ¬∃ u x, StringBody q u ∧ s ++ w = u ++ q :: x := by
  rintro ⟨u, x, hu, h⟩
  have hback : q ≠ '\\' := by
    rintro rfl
    cases hq
  induction hs generalizing u with
  | nil =>
    rw [List.nil_append] at h
    subst h
    cases hu with
    | nil =>
      rcases hw with hw | hw | hw
      · cases hw
      · exact hback (List.cons.inj hw).1
      · cases hw
        cases hq
    | plain _ hescape hline _ =>
      rcases hw with hw | hw | hw
      · cases hw
      · exact hescape (List.cons.inj hw).1
      · exact hline (Option.some.inj hw)
    | escaped _ => simp at hw
  | plain hne hescape _ _ ih =>
    cases hu with
    | nil => exact absurd (List.cons.inj h).1 hne
    | plain _ _ _ hu => exact ih _ hu (List.cons.inj h).2
    | escaped _ => exact absurd (List.cons.inj h).1 hescape
  | escaped _ ih =>
    cases hu with
    | nil => exact absurd (List.cons.inj h).1.symm hback
    | plain _ hescape _ _ => exact absurd (List.cons.inj h).1.symm hescape
    | escaped hu => exact ih _ hu (List.cons.inj (List.cons.inj h).2).2

theorem closes_concat {s : Text} {c : Char} : ['*', '/'] <:+: s ++ [c] ↔
    ['*', '/'] <:+: s ∨ s.getLast? = some '*' ∧ c = '/' := by
  rw [List.infix_concat_iff, or_comm]
  refine or_congr_right ⟨?_, ?_⟩
  · rintro ⟨u, h⟩
    have hsplit : (u ++ ['*']) ++ ['/'] = s ++ [c] := by simpa using h
    obtain ⟨rfl, hc⟩ := List.append_inj' hsplit rfl
    exact ⟨by simp, (List.cons.inj hc).1.symm⟩
  · rintro ⟨hlast, rfl⟩
    obtain ⟨u, rfl⟩ := List.getLast?_eq_some_iff.1 hlast
    exact ⟨u, by simp⟩

namespace Reader

/-- What the reader of `t` is in the middle of, with `v` to come, and where that began. -/
inductive Stands (t : Text) (blocks : List Text) (depth : Nat) :
    Mode → Position → Text → Prop where
  | code {mark : Position} {v : Text} : Reached t ⟨blocks, depth, v⟩ →
      Stands t blocks depth .code mark v
  | slash {mark : Position} {v : Text} : Reached t ⟨blocks, depth, '/' :: v⟩ →
      At t ('/' :: v) mark → Stands t blocks depth .slash mark v
  | comment {mark : Position} {s v : Text} : Reached t ⟨blocks, depth, '/' :: '*' :: (s ++ v)⟩ →
      At t ('/' :: '*' :: (s ++ v)) mark → ¬['*', '/'] <:+: s → s.getLast? ≠ some '*' →
      Stands t blocks depth .comment mark v
  | commentStar {mark : Position} {s v : Text} :
      Reached t ⟨blocks, depth, '/' :: '*' :: (s ++ '*' :: v)⟩ →
      At t ('/' :: '*' :: (s ++ '*' :: v)) mark → ¬['*', '/'] <:+: s →
      Stands t blocks depth .commentStar mark v
  | inside {mark : Position} {q : Char} {s v : Text} :
      Reached t ⟨blocks, depth, q :: (s ++ v)⟩ → At t (q :: (s ++ v)) mark → isQuote q = true →
      StringBody q s → Stands t blocks depth (.quoted (.inside q)) mark v
  | escaped {mark : Position} {q : Char} {s v : Text} :
      Reached t ⟨blocks, depth, q :: (s ++ '\\' :: v)⟩ → At t (q :: (s ++ '\\' :: v)) mark →
      isQuote q = true → StringBody q s → Stands t blocks depth (.quoted (.escaped q)) mark v

/-- A statement begins at `p`. -/
def StartsAt (t : Text) (p : Position) : Prop :=
  ∃ u v blocks, t = u ++ v ∧ p = Position.after u ∧
    (∀ c, u.getLast? = some c → isTerminator c = true) ∧ Reached t ⟨blocks, 0, v⟩

/-- The blocks that the reader of `t` is in are open, and its statement began where it says. -/
structure Within (t : Text) (r : Reader) (blocks : List Text) : Prop where
  outer : List.Forall₂ (fun b w => At t w b.opened ∧ w.head? = some '{') r.outer blocks
  start : StartsAt t r.start

/-- What a reader of `t` comes to: it goes on, or the error blames its culprit. -/
def Tracks (t v : Text) : Except SyntaxError Reader → Prop
  | .ok s => ∃ blocks, s.Within t blocks ∧ Stands t blocks s.depth s.mode s.mark v
  | .error e => Blames t e

variable {t v : Text} {r : Reader} {blocks : List Text} {c : Char}

theorem ofStatement_error {x : Text} {fault : SyntaxFault} (h : Node.ofStatement x = .error fault) :
    fault = .emptyProperty ∨ ∃ y, fault = .expectedDeclaration y := by
  unfold Node.ofStatement at h
  split at h
  · cases h
  · split at h
    · cases h
      exact Or.inr ⟨_, rfl⟩
    · dsimp only at h
      split at h
      · cases h
        exact Or.inl rfl
      · cases h

theorem endStatement_blames {e : SyntaxError} (hstart : StartsAt t r.start)
    (h : r.endStatement = .error e) : Blames t e := by
  obtain ⟨u, v, before, ht, hp, hbehind, hreached⟩ := hstart
  unfold endStatement at h
  split at h
  · cases h
  · split at h
    · cases h
    next fault hfault =>
      cases h
      refine ⟨u, v, ht, hp, ?_⟩
      rcases ofStatement_error hfault with rfl | ⟨y, rfl⟩
      · exact ⟨hbehind, before, hreached⟩
      · exact ⟨hbehind, before, hreached⟩

theorem reached_step {x y : Cursor} (h : Reached t x) (hstep : Cursor.Step x y) : Reached t y :=
  Relation.ReflTransGen.tail h hstep

theorem startsAt_tail (h : At t (c :: v) r.here) (hc : isTerminator c = true)
    (hreached : Reached t ⟨blocks, 0, v⟩) : StartsAt t (r.here.advance c) := by
  obtain ⟨u, rfl, hp⟩ := h
  refine ⟨u ++ [c], v, blocks, by simp, ?_, fun d hd => ?_, hreached⟩
  · rw [hp, Position.after_append_singleton]
  · rw [List.getLast?_concat, Option.some.injEq] at hd
    exact hd ▸ hc

theorem not_step_close (r : Text) (z : Cursor) : ¬Cursor.Step ⟨[], 0, '}' :: r⟩ z := by
  intro h
  generalize hx : (⟨[], 0, '}' :: r⟩ : Cursor) = x at h
  cases h with
  | plain hplain =>
    obtain ⟨_, rfl, hrest⟩ := Cursor.mk.inj hx
    exact (hplain.brace rfl).2 (List.cons.inj hrest).1.symm
  | quoted hq _ =>
    obtain ⟨_, _, hrest⟩ := Cursor.mk.inj hx
    rw [← (List.cons.inj hrest).1] at hq
    cases hq
  | comment _ => simp at hx
  | opening => simp at hx
  | closing => simp at hx
  | openBlock => simp at hx
  | closeBlock => simp at hx

theorem tracks_code {s : Reader} (hwithin : s.Within t blocks) (hmode : s.mode = .code)
    (hreached : Reached t ⟨blocks, s.depth, v⟩) : Tracks t v (.ok s) :=
  ⟨blocks, hwithin, hmode ▸ .code hreached⟩

theorem tracks_restart {s : Reader} (hmode : s.mode = .code) (hdepth : s.depth = 0)
    (houter : List.Forall₂ (fun b w => At t w b.opened ∧ w.head? = some '{') s.outer blocks)
    (hhere : At t (c :: v) s.here) (hc : isTerminator c = true)
    (hreached : Reached t ⟨blocks, 0, v⟩) : Tracks t v (.ok (s.restart c)) :=
  tracks_code ⟨houter, startsAt_tail hhere hc hreached⟩ hmode (hdepth.symm ▸ hreached)

section

variable (hwithin : r.Within t blocks) (hmode : r.mode = .code) (hdepth : r.depth = 0)
include hwithin hmode hdepth

theorem semicolon_tracks (hhere : At t (';' :: v) r.here)
    (hreached : Reached t ⟨blocks, 0, ';' :: v⟩) : Tracks t v (r.takeCode ';') := by
  have hnext : Reached t ⟨blocks, 0, v⟩ :=
    reached_step hreached (.plain ⟨rfl, by decide, fun _ => by decide,
      fun h => absurd h.1 (by decide)⟩)
  rw [takeCode_semicolon hdepth]
  cases hended : r.endStatement with
  | error e => exact endStatement_blames hwithin.start hended
  | ok s =>
    rcases endStatement_ok hended with ⟨_, rfl⟩ | ⟨_, n, _, rfl⟩ <;>
      exact tracks_restart hmode hdepth hwithin.outer hhere rfl hnext

theorem open_tracks (hhere : At t ('{' :: v) r.here)
    (hreached : Reached t ⟨blocks, 0, '{' :: v⟩) : Tracks t v (r.takeCode '{') := by
  rw [takeCode_open hdepth, openBlock]
  have hnext := reached_step hreached .openBlock
  split
  · obtain ⟨u, w, before, ht, hp, hbehind, hw⟩ := hwithin.start
    exact ⟨u, w, ht, hp, hbehind, before, hw⟩
  · exact tracks_restart hmode hdepth (.cons ⟨hhere, rfl⟩ hwithin.outer) hhere rfl hnext

theorem close_tracks (hhere : At t ('}' :: v) r.here)
    (hreached : Reached t ⟨blocks, 0, '}' :: v⟩) : Tracks t v (r.takeCode '}') := by
  rw [takeCode_close hdepth]
  cases hended : r.endStatement with
  | error e => exact endStatement_blames hwithin.start hended
  | ok s =>
    have hs : s.outer = r.outer ∧ s.here = r.here ∧ s.mode = .code ∧ s.depth = 0 := by
      rcases endStatement_ok hended with ⟨_, rfl⟩ | ⟨_, n, _, rfl⟩ <;>
        exact ⟨rfl, rfl, hmode, hdepth⟩
    obtain ⟨hsouter, hshere, hsmode, hsdepth⟩ := hs
    have houter := hsouter ▸ hwithin.outer
    rw [← hshere] at hhere
    show Tracks t v (s.closeBlock.map (·.restart '}'))
    rw [closeBlock]
    cases hblocks : s.outer with
    | nil =>
      rw [hblocks] at houter
      cases houter
      obtain ⟨u, ht, hp⟩ := hhere
      refine ⟨u, _, ht, hp, rfl, hreached, fun w hw => ?_⟩
      have hsame := hreached.unique_end hw (not_step_close v) (not_step_close w)
      exact congrArg Cursor.rest hsame
    | cons b outer =>
      rw [hblocks] at houter
      cases houter with
      | cons _ houter =>
        exact tracks_restart (s := { s with nodes := b.before ++ [b.close s.nodes], outer })
          hsmode hsdepth houter hhere rfl (reached_step hreached .closeBlock)

end

theorem takeCode_tracks (hwithin : r.Within t blocks) (hmode : r.mode = .code)
    (hhere : At t (c :: v) r.here) (hreached : Reached t ⟨blocks, r.depth, c :: v⟩) :
    Tracks t v (r.takeCode c) := by
  by_cases hend : isTerminator c = true ∧ r.depth = 0
  · obtain ⟨hc, hdepth⟩ := hend
    rw [hdepth] at hreached
    simp only [isTerminator, Bool.or_eq_true, decide_eq_true_eq] at hc
    rcases hc with (rfl | rfl) | rfl
    · exact semicolon_tracks hwithin hmode hdepth hhere hreached
    · exact open_tracks hwithin hmode hdepth hhere hreached
    · exact close_tracks hwithin hmode hdepth hhere hreached
  obtain ⟨houter, hstart⟩ := hwithin
  by_cases hslash : c = '/'
  · subst hslash
    exact ⟨blocks, ⟨houter, hstart⟩, .slash hreached hhere⟩
  by_cases hquote : isQuote c = true
  · rw [takeCode, if_neg hslash, if_pos hquote]
    exact ⟨blocks, ⟨houter, hstart⟩, .inside (s := []) hreached hhere hquote .nil⟩
  by_cases hopening : c = '('
  · subst hopening
    exact tracks_code ⟨houter, hstart⟩ hmode (reached_step hreached .opening)
  by_cases hclosing : c = ')'
  · subst hclosing
    exact tracks_code ⟨houter, hstart⟩ hmode (reached_step hreached .closing)
  have hplain := Bool.eq_false_iff.2 hquote
  have hbrace : r.depth = 0 → c ≠ '{' ∧ c ≠ '}' := fun hdepth =>
    ⟨fun hc => hend ⟨hc ▸ rfl, hdepth⟩, fun hc => hend ⟨hc ▸ rfl, hdepth⟩⟩
  rw [takeCode_plain hslash hplain hopening hclosing hend]
  exact tracks_code ⟨houter, hstart⟩ hmode (reached_step hreached
    (.plain ⟨hplain, ⟨hopening, hclosing⟩, hbrace, fun h => hslash h.1⟩))

theorem tracks_stands {s : Reader} {mode : Mode} (hwithin : r.Within t blocks)
    (houter : s.outer = r.outer) (hstart : s.start = r.start) (hmode : s.mode = mode)
    (hstands : Stands t blocks s.depth mode s.mark v) : Tracks t v (.ok s) :=
  ⟨blocks, ⟨houter ▸ hwithin.outer, hstart ▸ hwithin.start⟩, hmode ▸ hstands⟩

theorem take_tracks (hwithin : r.Within t blocks) (hhere : At t (c :: v) r.here)
    (hstands : Stands t blocks r.depth r.mode r.mark (c :: v)) : Tracks t v (r.take c) := by
  obtain ⟨mode, depth, read, start, mark, here, nodes, outer⟩ := r
  cases hstands with
  | code hreached => exact takeCode_tracks hwithin rfl hhere hreached
  | slash hreached hmark =>
    by_cases hc : c = '*'
    · subst hc
      exact tracks_stands hwithin rfl rfl rfl (.comment (s := []) hreached hmark (by simp) nofun)
    · have hplain : IsPlain depth '/' (c :: v) := ⟨rfl, by decide, fun _ => by decide, by simp [hc]⟩
      rw [take, if_neg hc]
      exact takeCode_tracks ⟨hwithin.outer, hwithin.start⟩ rfl hhere
        (reached_step hreached (.plain hplain))
  | @comment _ s _ hreached hmark hs hlast =>
    by_cases hc : c = '*'
    · subst hc
      exact tracks_stands hwithin rfl rfl rfl (.commentStar hreached hmark hs)
    · have hshift : s ++ c :: v = (s ++ [c]) ++ v := by simp
      have hopen : ¬['*', '/'] <:+: s ++ [c] := by simp [closes_concat, hs, hlast]
      rw [hshift] at hreached hmark
      exact tracks_stands hwithin rfl rfl (if_neg hc)
        (.comment hreached hmark hopen (by simp [hc]))
  | @commentStar _ s _ hreached hmark hs =>
    have hstar : ¬['*', '/'] <:+: s ++ ['*'] := by simp [closes_concat, hs]
    by_cases hslash : c = '/'
    · subst hslash
      exact tracks_stands hwithin rfl rfl rfl (.code (reached_step hreached (.comment hs)))
    have hshift : s ++ '*' :: c :: v = (s ++ ['*']) ++ c :: v := by simp
    rw [hshift] at hreached hmark
    by_cases hc : c = '*'
    · subst hc
      exact tracks_stands hwithin rfl rfl rfl (.commentStar hreached hmark hstar)
    · have hopen : ¬['*', '/'] <:+: (s ++ ['*']) ++ [c] := by
        rw [closes_concat]
        simp [hstar, hslash]
      have hagain : (s ++ ['*']) ++ c :: v = (s ++ ['*'] ++ [c]) ++ v := by simp
      rw [hagain] at hreached hmark
      exact tracks_stands hwithin rfl rfl ((if_neg hslash).trans (if_neg hc))
        (.comment hreached hmark hopen (by simp [hc]))
  | @inside _ q s _ hreached hmark hq hs =>
    by_cases hline : c = '\n'
    · subst hline
      obtain ⟨u, ht, hp⟩ := hmark
      exact ⟨u, _, ht, hp, q, _, blocks, depth, rfl, hq, hreached,
        hs.not_closed hq (Or.inr (Or.inr rfl))⟩
    rw [take_string rfl fun _ _ => hline]
    by_cases hback : c = '\\'
    · subst hback
      exact tracks_stands hwithin rfl rfl rfl (.escaped hreached hmark hq hs)
    have hnext : Quoting.next (.inside q) c = if c = q then .bare else .inside q := if_neg hback
    by_cases hclose : c = q
    · subst hclose
      rw [if_pos rfl] at hnext
      exact tracks_stands hwithin rfl rfl (if_pos hnext)
        (.code (reached_step hreached (.quoted hq hs)))
    · rw [if_neg hclose] at hnext
      have hshift : s ++ c :: v = (s ++ [c]) ++ v := by simp
      rw [hshift] at hreached hmark
      have hopen : (if Quoting.next (.inside q) c = .bare then Mode.code
          else .quoted (Quoting.next (.inside q) c)) = .quoted (.inside q) := by rw [hnext]; rfl
      exact tracks_stands hwithin rfl rfl hopen
        (.inside hreached hmark hq (hs.append (.plain hclose hback hline .nil)))
  | @escaped _ q s _ hreached hmark hq hs =>
    have hshift : s ++ '\\' :: c :: v = (s ++ ['\\', c]) ++ v := by simp
    rw [hshift] at hreached hmark
    exact tracks_stands hwithin rfl rfl rfl (.inside hreached hmark hq (hs.append (.escaped .nil)))

theorem step_tracks (hwithin : r.Within t blocks) (hhere : At t (c :: v) r.here)
    (hstands : Stands t blocks r.depth r.mode r.mark (c :: v)) : Tracks t v (r.step c) := by
  have htake := take_tracks hwithin hhere hstands
  rw [step]
  cases hr : r.take c with
  | error e =>
    rw [hr] at htake
    exact htake
  | ok s =>
    rw [hr] at htake
    obtain ⟨next, hnext, hs⟩ := htake
    exact ⟨next, ⟨hnext.outer, hnext.start⟩, hs⟩

theorem ended_blames {depth : Nat} {e : SyntaxError} (hwithin : r.Within t blocks)
    (hreached : Reached t ⟨blocks, depth, []⟩)
    (h : r.endStatement.bind result = .error e) : Blames t e := by
  cases hended : r.endStatement with
  | error f =>
    rw [hended] at h
    cases h
    exact endStatement_blames hwithin.start hended
  | ok s =>
    have houter : s.outer = r.outer := by
      rcases endStatement_ok hended with ⟨_, rfl⟩ | ⟨_, n, _, rfl⟩ <;> rfl
    have hopen := hwithin.outer
    rw [hended] at h
    rw [← houter] at hopen
    dsimp only [Except.bind] at h
    rw [result] at h
    cases hblocks : s.outer with
    | nil =>
      rw [hblocks] at h
      cases h
    | cons b outer =>
      rw [hblocks] at h hopen
      cases h
      cases hopen with
      | cons hb _ =>
        obtain ⟨⟨u, ht, hp⟩, hbrace⟩ := hb
        exact ⟨u, _, ht, hp, hbrace, _, depth, hreached⟩

theorem finish_blames {e : SyntaxError} (hwithin : r.Within t blocks)
    (hstands : Stands t blocks r.depth r.mode r.mark []) (h : r.finish = .error e) :
    Blames t e := by
  obtain ⟨mode, depth, read, start, mark, here, nodes, outer⟩ := r
  cases hstands with
  | code hreached => exact ended_blames hwithin hreached h
  | slash hreached _ =>
    have hplain : IsPlain depth '/' [] := ⟨rfl, by decide, fun _ => by decide, by simp⟩
    exact ended_blames (r := push ⟨.slash, depth, read, start, mark, here, nodes, outer⟩ '/')
      ⟨hwithin.outer, hwithin.start⟩ (reached_step hreached (.plain hplain)) h
  | @comment _ s _ hreached hmark hs _ =>
    cases h
    obtain ⟨u, ht, hp⟩ := hmark
    exact ⟨u, _, ht, hp, _, blocks, depth, rfl, hreached, by simpa using hs⟩
  | @commentStar _ s _ hreached hmark hs =>
    cases h
    obtain ⟨u, ht, hp⟩ := hmark
    exact ⟨u, _, ht, hp, _, blocks, depth, rfl, hreached, by simp [closes_concat, hs]⟩
  | @inside _ q s _ hreached hmark hq hs =>
    cases h
    obtain ⟨u, ht, hp⟩ := hmark
    exact ⟨u, _, ht, hp, q, _, blocks, depth, rfl, hq, hreached, hs.not_closed hq (Or.inl rfl)⟩
  | @escaped _ q s _ hreached hmark hq hs =>
    cases h
    obtain ⟨u, ht, hp⟩ := hmark
    exact ⟨u, _, ht, hp, q, _, blocks, depth, rfl, hq, hreached,
      hs.not_closed hq (Or.inr (Or.inl rfl))⟩

theorem readAll_blames {e : SyntaxError} (hwithin : r.Within t blocks) (hhere : At t v r.here)
    (hstands : Stands t blocks r.depth r.mode r.mark v)
    (h : (r.readAll v).bind finish = .error e) : Blames t e := by
  induction v generalizing r blocks with
  | nil => exact finish_blames hwithin hstands h
  | cons c v ih =>
    have hstep := step_tracks hwithin hhere hstands
    rw [readAll_cons] at h
    cases hs : r.step c with
    | error f =>
      rw [hs] at h hstep
      cases h
      exact hstep
    | ok s =>
      rw [hs] at h hstep
      obtain ⟨next, hnext, hstands⟩ := hstep
      obtain ⟨u, hu, rfl⟩ := take_of_step hs
      exact ih hnext ((here_take hu).symm ▸ hhere.tail) hstands h

end Reader

theorem parse_error_iff {t : Text} {e : SyntaxError} :
    parse t = .error e ↔ parseAsWritten t = .error e := by
  rw [parse]
  cases parseAsWritten t <;> simp [Except.map]

/--
A syntax error points at its culprit, and its line and column denote no other place of the text.

The culprit of an unclosed block is the innermost brace that is open at the end, of an unexpected
brace the only one that is met where no block is open, of an unclosed string the quote that nothing
closes before the end of its line, and of an unclosed comment its beginning.
-/
theorem parse_error_culprit {t : Text} {e : SyntaxError} (h : parse t = .error e) :
    ∃ u v, t = u ++ v ∧ e.position = Position.after u ∧
      (∀ x y, t = x ++ y → e.position = Position.after x → x = u) ∧ Culprit t u v e.fault := by
  have hstart : Reader.StartsAt t .first :=
    ⟨[], t, [], rfl, rfl, by simp, Relation.ReflTransGen.refl⟩
  have hblames : Blames t e := Reader.readAll_blames (r := Reader.initial)
    ⟨.nil, hstart⟩ ⟨[], rfl, rfl⟩ (.code Relation.ReflTransGen.refl) (parse_error_iff.1 h)
  obtain ⟨u, v, ht, hp, hculprit⟩ := hblames
  exact ⟨u, v, ht, hp, fun x y hx hpx => Position.after_unique ht hx (hp.symm.trans hpx), hculprit⟩

/-- The brace on the second line is still open at the end; those in the string and comment are not
blocks. -/
theorem parse_error_culprit_nested :
    parse "é\x7b\x7d\na\x7bb:'\x7d\\'\x7b'/*\x7b*/".toList = .error ⟨.unclosedBlock, ⟨2, 2⟩⟩ ∧
      ∃ u v, "é\x7b\x7d\na\x7bb:'\x7d\\'\x7b'/*\x7b*/".toList = u ++ v ∧
        (⟨2, 2⟩ : Position) = Position.after u ∧
        (∀ x y, "é\x7b\x7d\na\x7bb:'\x7d\\'\x7b'/*\x7b*/".toList = x ++ y →
          (⟨2, 2⟩ : Position) = Position.after x → x = u) ∧
        Culprit "é\x7b\x7d\na\x7bb:'\x7d\\'\x7b'/*\x7b*/".toList u v .unclosedBlock := by
  have h : parse "é\x7b\x7d\na\x7bb:'\x7d\\'\x7b'/*\x7b*/".toList =
      .error ⟨.unclosedBlock, ⟨2, 2⟩⟩ := by rfl
  exact ⟨h, parse_error_culprit h⟩

end AtomicCss
