import AtomicCss.Proofs.Data.Distinct
import AtomicCss.Proofs.Data.OrderedMap
import AtomicCss.Stylesheet.MediaOrder
set_option autoImplicit false

/-!
What merging and sorting do to the media blocks of a stylesheet, whatever its queries are printed
like.

Merging is described by what it leaves under each query (`gather`), sorting by what it leaves under
each key: the same blocks in the same order (`filter_sortBlocks`). Both find their results
unchanged, so sorting a sorted stylesheet changes nothing.
-/

namespace AtomicCss

namespace MediaQuery.Key

/-- By rank, then by size, where negative zero comes before zero and infinities at the ends. -/
def Below (a b : Key) : Prop :=
  a.rank < b.rank ∨ a.rank = b.rank ∧ a.size.rank < b.size.rank

variable {a b c : Key}

theorem le_iff : a.le b = true ↔ a.Below b ∨ a = b := by
  have heq : a = b ↔ a.rank = b.rank ∧ a.size.rank = b.size.rank := by
    constructor
    · rintro rfl
      exact ⟨rfl, rfl⟩
    · rintro ⟨hrank, hsize⟩
      obtain ⟨r, x⟩ := a
      obtain ⟨s, y⟩ := b
      obtain rfl : r = s := hrank
      obtain rfl : x = y := Binary64.rank_injective hsize
      rfl
  rw [heq]
  simp only [le, Below, Bool.or_eq_true, Bool.and_eq_true, decide_eq_true_eq]
  omega

theorem le_total (a b : Key) : (a.le b || b.le a) = true := by
  simp only [le, Bool.or_eq_true, Bool.and_eq_true, decide_eq_true_eq]
  omega

theorem below_trichotomy (a b : Key) : a.Below b ∨ a = b ∨ b.Below a := by
  rcases Bool.or_eq_true_iff.1 (le_total a b) with h | h
  · exact (le_iff.1 h).imp_right Or.inl
  · exact Or.inr ((le_iff.1 h).symm.imp_left Eq.symm)

theorem le_trans (a b c : Key) (hab : a.le b = true) (hbc : b.le c = true) : a.le c = true := by
  simp only [le, Bool.or_eq_true, Bool.and_eq_true, decide_eq_true_eq] at hab hbc ⊢
  omega

end MediaQuery.Key

namespace Stylesheet

variable {spell : Text → Text}

/-- What blocks of one query are merged to: the header of the first, and what is in all of them. -/
def gather (spell : Text → Text) (blocks : List (Text × List Node)) (query : Text) :
    Option (Text × List Node) :=
  match blocks.filter (printedQuery spell ·.1 = query) with
  | [] => none
  | first :: more => some (first.1, (first :: more).flatMap (·.2))

def queries (spell : Text → Text) (blocks : List (Text × List Node)) : List Text :=
  blocks.map (printedQuery spell ·.1)

/-- The media blocks of a stylesheet, merged and in order, each under its query. -/
structure MediaSorted (spell : Text → Text) (blocks : List (Text × List Node))
    (sorted : OrderedMap Text (Text × List Node)) : Prop where
  distinct : sorted.keys.Nodup
  mem_keys : ∀ query, query ∈ sorted.keys ↔ query ∈ queries spell blocks
  content : ∀ e ∈ sorted, gather spell blocks e.1 = some e.2
  /-- By keys, and with equal keys by the first appearance of the query. -/
  order : sorted.Pairwise fun a b => (MediaQuery.key a.1).Below (MediaQuery.key b.1) ∨
    MediaQuery.key a.1 = MediaQuery.key b.1 ∧
      (queries spell blocks).idxOf a.1 < (queries spell blocks).idxOf b.1

theorem mergeBlocks_append_singleton (blocks : List (Text × List Node)) (b : Text × List Node) :
    mergeBlocks spell (blocks ++ [b]) = mergeBlock spell (mergeBlocks spell blocks) b :=
  List.foldl_append

theorem keys_mergeBlocks (blocks : List (Text × List Node)) :
    (mergeBlocks spell blocks).keys = (queries spell blocks).eraseDups := by
  induction blocks using List.reverseRecOn with
  | nil => rfl
  | append_singleton blocks b ih =>
    have hqueries : queries spell (blocks ++ [b]) =
        queries spell blocks ++ [printedQuery spell b.1] := List.map_append
    rw [mergeBlocks_append_singleton, mergeBlock, OrderedMap.keys_put, ih, hqueries,
      eraseDups_append_singleton]
    rfl

theorem get?_mergeBlocks (blocks : List (Text × List Node)) (query : Text) :
    (mergeBlocks spell blocks).get? query = gather spell blocks query := by
  induction blocks using List.reverseRecOn with
  | nil => rfl
  | append_singleton blocks b ih =>
    rw [mergeBlocks_append_singleton, mergeBlock, OrderedMap.get?_put, gather, List.filter_append]
    by_cases hq : printedQuery spell b.1 = query
    · rw [if_pos hq, hq, ih, gather]
      cases blocks.filter (printedQuery spell ·.1 = query) with
      | nil => simp [hq]
      | cons first more => simp [hq]
    · rw [if_neg hq, ih, gather]
      simp [hq]

theorem mem_gather {blocks : List (Text × List Node)} {query : Text} {b : Text × List Node}
    (h : gather spell blocks query = some b) :
    printedQuery spell b.1 = query ∧ ∃ first ∈ blocks, first.1 = b.1 := by
  rw [gather] at h
  cases hfilter : blocks.filter (printedQuery spell ·.1 = query) with
  | nil =>
    rw [hfilter] at h
    cases h
  | cons first more =>
    rw [hfilter] at h
    obtain rfl := Option.some.inj h
    have hfirst := List.mem_filter.1 (hfilter ▸ List.mem_cons_self)
    exact ⟨by simpa using hfirst.2, first, hfirst.1, rfl⟩

def precedes (a b : Text × Text × List Node) : Bool :=
  (MediaQuery.key a.1).le (MediaQuery.key b.1)

theorem precedes_total (a b : Text × Text × List Node) : (precedes a b || precedes b a) = true :=
  MediaQuery.Key.le_total _ _

theorem precedes_trans (a b c : Text × Text × List Node) (hab : precedes a b = true)
    (hbc : precedes b c = true) : precedes a c = true :=
  MediaQuery.Key.le_trans _ _ _ hab hbc

section

variable (m : OrderedMap Text (Text × List Node))

theorem sortBlocks_perm : (sortBlocks m).Perm m := List.mergeSort_perm m _

theorem pairwise_sortBlocks : (sortBlocks m).Pairwise fun a b => precedes a b = true :=
  List.pairwise_mergeSort precedes_trans precedes_total m

theorem filter_sortBlocks (k : MediaQuery.Key) :
    (sortBlocks m).filter (MediaQuery.key ·.1 = k) = m.filter (MediaQuery.key ·.1 = k) := by
  have hequal : (m.filter (MediaQuery.key ·.1 = k)).Pairwise fun a b => precedes a b = true := by
    refine List.pairwise_of_forall_mem_list fun a ha b hb => ?_
    have hka := (List.mem_filter.1 ha).2
    have hkb := (List.mem_filter.1 hb).2
    simp only [decide_eq_true_eq] at hka hkb
    exact MediaQuery.Key.le_iff.2 (Or.inr (hka.trans hkb.symm))
  have hsublist := (List.sublist_mergeSort precedes_trans precedes_total hequal
    List.filter_sublist).filter (MediaQuery.key ·.1 = k)
  simp only [List.filter_filter, Bool.and_self] at hsublist
  exact (hsublist.eq_of_length ((sortBlocks_perm m).filter _).length_eq.symm).symm

end

theorem mediaSorted (spell : Text → Text) (blocks : List (Text × List Node)) :
    MediaSorted spell blocks (sortBlocks (mergeBlocks spell blocks)) := by
  have hperm := sortBlocks_perm (mergeBlocks spell blocks)
  have hkeys : (sortBlocks (mergeBlocks spell blocks)).keys.Perm
      (queries spell blocks).eraseDups := keys_mergeBlocks blocks ▸ hperm.map Prod.fst
  have hdistinct : (mergeBlocks spell blocks).keys.Nodup := by
    rw [keys_mergeBlocks]
    exact nodup_eraseDups _
  have happear : (mergeBlocks spell blocks).Pairwise fun a b =>
      (queries spell blocks).idxOf a.1 < (queries spell blocks).idxOf b.1 := by
    have hpairs := pairwise_eraseDups (queries spell blocks)
    rwa [← keys_mergeBlocks, OrderedMap.keys, List.pairwise_map] at hpairs
  refine ⟨hkeys.nodup_iff.2 (nodup_eraseDups _), fun query => ?_, fun e he => ?_, ?_⟩
  · rw [hkeys.mem_iff, List.mem_eraseDups]
  · rw [← get?_mergeBlocks]
    exact OrderedMap.get?_of_mem hdistinct (hperm.mem_iff.1 he)
  · rw [List.pairwise_iff_forall_sublist] at happear ⊢
    intro a b hab
    have hle := List.pairwise_iff_forall_sublist.1 (pairwise_sortBlocks _) hab
    refine (MediaQuery.Key.le_iff.1 hle).imp_right fun hkey => ⟨hkey, happear ?_⟩
    have hfiltered := hab.filter (MediaQuery.key ·.1 = MediaQuery.key b.1)
    rw [filter_sortBlocks] at hfiltered
    simp only [hkey, decide_true, List.filter_cons_of_pos, List.filter_nil] at hfiltered
    exact hfiltered.trans List.filter_sublist

theorem mediaBlock?_header {n : Node} {b : Text × List Node} (h : mediaBlock? n = some b)
    (children : List Node) : mediaBlock? (.atRule b.1 children) = some (b.1, children) := by
  cases n with
  | atRule header inside =>
    rw [mediaBlock?] at h ⊢
    split at h
    next hkeyword =>
      cases h
      rw [if_pos hkeyword]
    next => cases h
  | declaration | rule | statement => cases h

theorem mergeBlocks_of_nodup {blocks : List (Text × List Node)}
    (h : (queries spell blocks).Nodup) :
    mergeBlocks spell blocks = blocks.map fun b => (printedQuery spell b.1, b) := by
  induction blocks using List.reverseRecOn with
  | nil => rfl
  | append_singleton blocks b ih =>
    have hqueries : queries spell (blocks ++ [b]) =
        queries spell blocks ++ [printedQuery spell b.1] := List.map_append
    rw [hqueries, List.nodup_append] at h
    have hnew : printedQuery spell b.1 ∉ (mergeBlocks spell blocks).keys := by
      rw [keys_mergeBlocks, List.mem_eraseDups]
      exact fun hmem => h.2.2 _ hmem _ (List.mem_singleton.2 rfl) rfl
    have hnone : (mergeBlocks spell blocks).get? (printedQuery spell b.1) = none := by
      rw [← Option.not_isSome_iff_eq_none, OrderedMap.isSome_get?]
      exact hnew
    rw [mergeBlocks_append_singleton, mergeBlock, hnone, OrderedMap.put_of_not_mem hnew, ih h.1,
      List.map_append]
    rfl

theorem MediaSorted.again {nodes : List Node} {sorted : OrderedMap Text (Text × List Node)}
    (h : MediaSorted spell (nodes.filterMap mediaBlock?) sorted) :
    mergeBlocks spell (sorted.map (·.2)) = sorted ∧ sortBlocks sorted = sorted := by
  have hquery : ∀ e ∈ sorted, printedQuery spell e.2.1 = e.1 := fun e he =>
    (mem_gather (h.content e he)).1
  have hqueries : queries spell (sorted.map (·.2)) = sorted.keys := by
    rw [queries, List.map_map]
    exact List.map_congr_left hquery
  constructor
  · have hsame : sorted.map (fun e => (printedQuery spell e.2.1, e.2)) = sorted.map id :=
      List.map_congr_left fun e he => Prod.ext (hquery e he) rfl
    rw [mergeBlocks_of_nodup (hqueries ▸ h.distinct), List.map_map]
    exact hsame.trans (List.map_id _)
  · refine List.mergeSort_of_pairwise (h.order.imp fun hab => ?_)
    exact MediaQuery.Key.le_iff.2 (hab.imp_right And.left)

theorem sortMedia_append (spell : Text → Text) {others : List Node}
    {sorted : OrderedMap Text (Text × List Node)} (hothers : ∀ n ∈ others, mediaBlock? n = none)
    (hsorted : ∀ e ∈ sorted, mediaBlock? (.atRule e.2.1 e.2.2) = some e.2) :
    sortMedia spell (others ++ sorted.map fun e => .atRule e.2.1 e.2.2) =
      others ++ (sortBlocks (mergeBlocks spell (sorted.map (·.2)))).map fun e =>
        .atRule e.2.1 e.2.2 := by
  have hkept : others.filter (fun n => (mediaBlock? n).isNone) = others :=
    List.filter_eq_self.2 fun n hn => by simp [hothers n hn]
  have hmoved : (sorted.map fun e => Node.atRule e.2.1 e.2.2).filter
      (fun n => (mediaBlock? n).isNone) = [] := by
    refine List.filter_eq_nil_iff.2 fun n hn => ?_
    obtain ⟨e, he, rfl⟩ := List.mem_map.1 hn
    simp [hsorted e he]
  have hnone : others.filterMap mediaBlock? = [] := List.filterMap_eq_nil_iff.2 hothers
  have hblocks : (sorted.map fun e => Node.atRule e.2.1 e.2.2).filterMap mediaBlock? =
      sorted.map (·.2) := by
    rw [List.filterMap_map, ← List.filterMap_eq_map]
    exact List.filterMap_congr hsorted
  rw [sortMedia, List.filter_append, List.filterMap_append, hkept, hmoved, hnone, hblocks,
    List.append_nil, List.nil_append]

theorem sortMedia_sortMedia (spell : Text → Text) (nodes : List Node) :
    sortMedia spell (sortMedia spell nodes) = sortMedia spell nodes := by
  have hsorted := mediaSorted spell (nodes.filterMap mediaBlock?)
  have hothers : ∀ n ∈ nodes.filter (fun n => (mediaBlock? n).isNone), mediaBlock? n = none :=
    fun n hn => Option.isNone_iff_eq_none.1 (List.mem_filter.1 hn).2
  have hmedia : ∀ e ∈ sortBlocks (mergeBlocks spell (nodes.filterMap mediaBlock?)),
      mediaBlock? (.atRule e.2.1 e.2.2) = some e.2 := by
    intro e he
    obtain ⟨_, first, hfirst, hheader⟩ := mem_gather (hsorted.content e he)
    obtain ⟨n, _, hn⟩ := List.mem_filterMap.1 hfirst
    have hblock := mediaBlock?_header hn e.2.2
    rwa [hheader] at hblock
  have hagain := sortMedia_append spell hothers hmedia
  rw [hsorted.again.1, hsorted.again.2] at hagain
  exact hagain

/--
Keys are totally ordered. And whatever queries are printed like, sorting gives what is not a media
block in the old order, then the merged media blocks in theirs; sorting again changes nothing.
-/
theorem sortMedia_merges (spell : Text → Text) (nodes : List Node) :
    (∀ a b : MediaQuery.Key, a.Below b ∨ a = b ∨ b.Below a) ∧
    (∃ sorted, MediaSorted spell (nodes.filterMap mediaBlock?) sorted ∧
      sortMedia spell nodes = nodes.filter (fun n => (mediaBlock? n).isNone) ++
        sorted.map fun e => .atRule e.2.1 e.2.2) ∧
    sortMedia spell (sortMedia spell nodes) = sortMedia spell nodes :=
  ⟨MediaQuery.Key.below_trichotomy, ⟨_, mediaSorted spell _, rfl⟩, sortMedia_sortMedia spell nodes⟩

end Stylesheet
end AtomicCss
