import Mathlib.Tactic

/-!
# Labelled spans of addresses

A map from addresses to labels, written down as a list of spans. Spans that meet and have the
same label can be one span; a list in which they all are is canonical.

## Main definitions

- `Span` — a label for the addresses from one to another
- `Labels` — some span of a list gives an address a label
- `placeAll` — spans one behind the other
- `push` — one span more at the end, joined with the last one if possible
- `Canonical` — sorted, disjoint, and nothing is left to join

## Main results

- `ordered_placeAll` — spans that are placed one behind the other are disjoint
- `labels_foldl_push`, `canonical_foldl_push` — pushing sorted spans keeps their labels and
  gives a canonical list
-/

namespace SysLib

/-- A label for `length` addresses from `start` on. -/
@[ext] structure Span (α : Type*) where
  label : α
  start : ℕ
  length : ℕ
  deriving DecidableEq, Repr

variable {α : Type*} {es ds : List (Span α)} {e l : Span α} {a : ℕ} {c : α}

/-- The first address behind a span. -/
def Span.stop (e : Span α) : ℕ := e.start + e.length

/-- A span of the list gives the address the label. -/
def Labels (es : List (Span α)) (a : ℕ) (c : α) : Prop :=
  ∃ e ∈ es, e.label = c ∧ e.start ≤ a ∧ a < e.stop

/-- The second span goes on with the label of the first one where that ends. -/
def Span.Continues (l e : Span α) : Prop := l.label = e.label ∧ l.stop = e.start

instance [DecidableEq α] (l e : Span α) : Decidable (l.Continues e) :=
  inferInstanceAs (Decidable (_ ∧ _))

/-- Two spans as one. -/
def Span.join (l e : Span α) : Span α := ⟨l.label, l.start, l.length + e.length⟩

/-- One span more, joined with the last one if it continues that. -/
def push [DecidableEq α] (es : List (Span α)) (e : Span α) : List (Span α) :=
  match es.getLast? with
  | some l => if l.Continues e then es.dropLast ++ [l.join e] else es ++ [e]
  | none => [e]

/-- Spans in the order of their addresses. -/
def Ordered (es : List (Span α)) : Prop := es.Pairwise fun x y => x.stop ≤ y.start

/-- Spans with labels and lengths, one behind the other. -/
def placeAll (start : ℕ) : List (α × ℕ) → List (Span α)
  | [] => []
  | (c, n) :: ps => ⟨c, start, n⟩ :: placeAll (start + n) ps

/-- Spans in order that cannot be joined. -/
structure Canonical (es : List (Span α)) : Prop where
  ordered : Ordered es
  apart : es.IsChain fun x y => ¬ x.Continues y

theorem placeAll_append (start : ℕ) (ps qs : List (α × ℕ)) : placeAll start (ps ++ qs) =
    placeAll start ps ++ placeAll (start + (ps.map Prod.snd).sum) qs := by
  induction ps generalizing start with
  | nil => rfl
  | cons p ps ih =>
    rw [List.cons_append, placeAll, placeAll, ih, List.map_cons, List.sum_cons, Nat.add_assoc]
    rfl

/-- A span that is placed lies between the start and the end of all. -/
theorem mem_placeAll {start : ℕ} {ps : List (α × ℕ)} (he : e ∈ placeAll start ps) :
    start ≤ e.start ∧ e.stop ≤ start + (ps.map Prod.snd).sum := by
  induction ps generalizing start with
  | nil => cases he
  | cons p ps ih =>
    rw [List.map_cons, List.sum_cons]
    obtain rfl | he := List.mem_cons.mp he
    · exact ⟨le_rfl, by dsimp only [Span.stop]; omega⟩
    · obtain ⟨hle, hstop⟩ := ih he
      omega

/-- Spans that are placed one behind the other are disjoint. -/
theorem ordered_placeAll (start : ℕ) (ps : List (α × ℕ)) : Ordered (placeAll start ps) := by
  induction ps generalizing start with
  | nil => exact List.Pairwise.nil
  | cons p ps ih =>
    refine List.pairwise_cons.mpr ⟨fun e he => ?_, ih _⟩
    exact (mem_placeAll he).1

theorem labels_append : Labels (es ++ ds) a c ↔ Labels es a c ∨ Labels ds a c := by
  simp only [Labels, List.mem_append]
  constructor
  · rintro ⟨e, he | he, h⟩
    · exact .inl ⟨e, he, h⟩
    · exact .inr ⟨e, he, h⟩
  · rintro (⟨e, he, h⟩ | ⟨e, he, h⟩)
    · exact ⟨e, .inl he, h⟩
    · exact ⟨e, .inr he, h⟩

@[simp] theorem labels_singleton : Labels [e] a c ↔ e.label = c ∧ e.start ≤ a ∧ a < e.stop := by
  simp [Labels]

theorem labels_map {β : Type*} {f : β → Span α} {xs : List β} : Labels (xs.map f) a c ↔
    ∃ x ∈ xs, (f x).label = c ∧ (f x).start ≤ a ∧ a < (f x).stop := by
  simp [Labels]

variable [DecidableEq α]

@[simp] theorem push_nil : push [] e = [e] := rfl

theorem push_concat : push (es ++ [l]) e =
    if l.Continues e then es ++ [l.join e] else es ++ [l, e] := by
  simp [push]

/-- A push gives the addresses of the span its label and keeps the labels of the others. -/
theorem labels_push : Labels (push es e) a c ↔ Labels es a c ∨ Labels [e] a c := by
  obtain rfl | ⟨front, l, rfl⟩ := List.eq_nil_or_concat' es
  · simp [Labels]
  rw [push_concat]
  split_ifs with hjoin
  · obtain ⟨hlabel, hstop⟩ := hjoin
    rw [labels_append, labels_append, or_assoc, labels_singleton, labels_singleton,
      labels_singleton, ← hlabel, ← hstop]
    simp only [Span.join, Span.stop] at hstop ⊢
    refine or_congr_right ?_
    rw [← and_or_left]
    refine and_congr_right fun _ => ?_
    omega
  · rw [List.append_cons, labels_append]

theorem labels_foldl_push :
    Labels (ds.foldl push es) a c ↔ Labels es a c ∨ Labels ds a c := by
  induction ds generalizing es with
  | nil => simp [Labels]
  | cons d ds ih => rw [List.foldl_cons, ih, labels_push, or_assoc, ← labels_append,
      List.singleton_append]

/-- A push keeps the spans before a later one. -/
theorem stop_le_of_push {bound : ℕ} (h : ∀ x ∈ es, x.stop ≤ bound) (he : e.stop ≤ bound) :
    ∀ x ∈ push es e, x.stop ≤ bound := by
  obtain rfl | ⟨front, l, rfl⟩ := List.eq_nil_or_concat' es
  · simpa using he
  rw [push_concat]
  intro x hx
  split_ifs at hx with hjoin
  · obtain hx | hx := List.mem_append.mp hx
    · exact h x (List.mem_append_left _ hx)
    · obtain rfl := List.mem_singleton.mp hx
      have hstop := hjoin.2
      simp only [Span.join, Span.stop] at *
      omega
  · rw [List.append_cons] at hx
    obtain hx | hx := List.mem_append.mp hx
    · exact h x hx
    · obtain rfl := List.mem_singleton.mp hx
      exact he

/-- Pushing a span behind all others keeps the list canonical. -/
theorem Canonical.push (h : Canonical es) (hle : ∀ x ∈ es, x.stop ≤ e.start) :
    Canonical (push es e) := by
  obtain rfl | ⟨front, l, rfl⟩ := List.eq_nil_or_concat' es
  · exact ⟨List.pairwise_singleton _ _, List.isChain_singleton _⟩
  obtain ⟨hfront, -, hl⟩ := List.pairwise_append.mp h.ordered
  rw [push_concat]
  split_ifs with hjoin
  · refine ⟨List.pairwise_append.mpr ⟨hfront, List.pairwise_singleton _ _, ?_⟩, ?_⟩
    · intro x hx y hy
      obtain rfl := List.mem_singleton.mp hy
      exact hl x hx l List.mem_cons_self
    · -- the joined span has the label and the start of the last one
      obtain rfl | ⟨front, k, rfl⟩ := List.eq_nil_or_concat' front
      · exact List.isChain_singleton _
      · have hchain := h.apart
        rw [List.append_assoc, List.singleton_append, List.isChain_append_cons_cons] at hchain ⊢
        exact ⟨hchain.1, hchain.2.1, List.isChain_singleton _⟩
  · rw [List.append_cons]
    refine ⟨List.pairwise_append.mpr ⟨h.ordered, List.pairwise_singleton _ _, ?_⟩, ?_⟩
    · intro x hx y hy
      obtain rfl := List.mem_singleton.mp hy
      exact hle x hx
    · rw [List.append_assoc, List.singleton_append, List.isChain_append_cons_cons]
      exact ⟨h.apart, hjoin, List.isChain_singleton _⟩

/-- **Run-length form**: pushing spans in their order gives a canonical list. -/
theorem canonical_foldl_push (h : Canonical es) (hds : Ordered ds)
    (hle : ∀ x ∈ es, ∀ d ∈ ds, x.stop ≤ d.start) : Canonical (ds.foldl SysLib.push es) := by
  induction ds generalizing es with
  | nil => exact h
  | cons d ds ih =>
    obtain ⟨hd, hds⟩ := List.pairwise_cons.mp hds
    refine ih (h.push fun x hx => hle x hx d List.mem_cons_self) hds fun x hx y hy => ?_
    refine stop_le_of_push (fun x hx => ?_) (hd y hy) x hx
    exact hle x hx y (List.mem_cons_of_mem _ hy)

end SysLib
