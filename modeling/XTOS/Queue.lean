import XTOS.Lib.Linked
import XTOS.Result

/-!
# Queues

The queue of `xtkernel/queue.c`: a chain of nodes with pointers to its two ends.

## Main definitions

- `XTQueue` — the nodes by address, the heap blocks in use and the two pointers
- `xtCreateQueue`, `xtPushQueue`, `xtPopQueue`, `xtRemoveFromQueue`
- `Holds` — the nodes of the chain
- `Op.spec` — the same operations on a list

## Design notes

Every push takes the block that `xtHeapAlloc` returned, which is not in use. The loop of
`xtRemoveFromQueue` has fuel: it ends at the first node with the datum or at the end of the
chain.
-/

namespace XTOS.Queue

open SysLib

/-- `XTQueueNode`. -/
structure XTQueueNode where
  data : ℕ
  next : ℕ
  deriving DecidableEq, Repr

/-- `XTQueue` with the heap: the nodes by address and the blocks in use. -/
structure XTQueue where
  nodes : ℕ → XTQueueNode
  used : ℕ → Bool
  head : ℕ
  tail : ℕ

/-- The link of a node. -/
def XTQueue.next (q : XTQueue) (i : ℕ) : ℕ := (q.nodes i).next

/-- The datum of a node. -/
def XTQueue.data (q : XTQueue) (i : ℕ) : ℕ := (q.nodes i).data

/-- `xtHeapFree` of a node. -/
def XTQueue.free (q : XTQueue) (i : ℕ) : XTQueue :=
  { q with used := Function.update q.used i false }

/-- Store the link of a node. -/
def XTQueue.setNext (q : XTQueue) (i next : ℕ) : XTQueue :=
  { q with nodes := Function.update q.nodes i { q.nodes i with next := next } }

/-- `xtCreateQueue`; the heap holds anything. -/
def xtCreateQueue (nodes : ℕ → XTQueueNode) (used : ℕ → Bool) : XTQueue := ⟨nodes, used, 0, 0⟩

/-- `xtPopQueue`, with the datum it returns. -/
def xtPopQueue (q : XTQueue) : XTQueue × XTResult × Option ℕ :=
  if q.head = 0 then (q, .invalidParameter, none)
  else
    let result := q.data q.head
    let head := q.head
    let q : XTQueue := { q with head := q.next q.head }
    let q : XTQueue := if q.head = 0 then { q with tail := 0 } else q
    (q.free head, .success, some result)

/-- `xtCreateQueueNode` in the block that `xtHeapAlloc` returned. -/
def xtCreateQueueNode (q : XTQueue) (data block : ℕ) : XTQueue :=
  { q with
    nodes := Function.update q.nodes block ⟨data, 0⟩
    used := Function.update q.used block true }

/-- `xtPushQueue`. -/
def xtPushQueue (q : XTQueue) (data block : ℕ) : XTQueue × XTResult :=
  let q := xtCreateQueueNode q data block
  let q : XTQueue := if q.tail = 0 then { q with tail := block }
    else { q.setNext q.tail block with tail := block }
  let q : XTQueue := if q.head = 0 then { q with head := q.tail } else q
  (q, .success)

/-- `xtRemoveFromQueue`. -/
def xtRemoveFromQueue (fuel : ℕ) (q : XTQueue) (data : ℕ) : Option (XTQueue × XTResult) :=
  (scan 0 q.next (fun i => q.data i = data) fuel 0 q.head).map fun (prev, i) =>
    if i = 0 then (q, .notFound)
    else
      let next := q.next i
      let q : XTQueue := if prev = 0 then { q with head := next } else q.setNext prev next
      let q : XTQueue := if next = 0 then { q with tail := prev } else q
      (q.free i, .success)

/-! ### Runs -/

/-- A call; a push comes with the block of its node. -/
inductive Op where
  | push (data block : ℕ)
  | pop
  | remove (data : ℕ)

/-- The result of a call and the datum of a pop. -/
abbrev Reply := XTResult × Option ℕ

/-- One call. -/
def XTQueue.exec (fuel : ℕ) (q : XTQueue) : Op → Option (XTQueue × Reply)
  | .push data block =>
    if block ≠ 0 ∧ q.used block = false then
      some ((xtPushQueue q data block).1, (xtPushQueue q data block).2, none)
    else none
  | .pop => some ((xtPopQueue q).1, (xtPopQueue q).2)
  | .remove data => (xtRemoveFromQueue fuel q data).map fun r => (r.1, r.2, none)

/-- A sequence of calls with their replies. -/
def XTQueue.run (fuel : ℕ) : XTQueue → List Op → Option (XTQueue × List Reply)
  | q, [] => some (q, [])
  | q, op :: ops =>
    (q.exec fuel op).bind fun r => (r.1.run fuel ops).map fun r' => (r'.1, r.2 :: r'.2)

/-- The same call on a list. -/
def Op.spec (l : List ℕ) : Op → List ℕ × Reply
  | .push data _ => (l ++ [data], .success, none)
  | .pop =>
    match l with
    | [] => ([], .invalidParameter, none)
    | x :: l => (l, .success, some x)
  | .remove data => if data ∈ l then (l.erase data, .success, none) else (l, .notFound, none)

/-- A sequence of calls on a list. -/
def specRun : List ℕ → List Op → List ℕ × List Reply
  | l, [] => (l, [])
  | l, op :: ops =>
    let r := specRun (op.spec l).1 ops
    (r.1, (op.spec l).2 :: r.2)

/-- The chain of the queue: its nodes in order, all in use, the last one at `tail`. -/
structure XTQueue.Holds (q : XTQueue) (xs : List ℕ) : Prop where
  linked : Linked 0 q.next q.head xs 0
  tail : q.tail = xs.getLastD 0
  used : ∀ x ∈ xs, q.used x = true

variable {q q' : XTQueue} {xs : List ℕ}

/-- The data of a queue. -/
def XTQueue.contents (q : XTQueue) (xs : List ℕ) : List ℕ := xs.map q.data

theorem XTQueue.Holds.head_eq_zero_iff (h : q.Holds xs) : q.head = 0 ↔ xs = [] := by
  cases xs with
  | nil => simpa using h.linked
  | cons x xs =>
    obtain ⟨hx, hne, -⟩ := h.linked
    simp [hx, hne]

theorem XTQueue.Holds.tail_eq_zero_iff (h : q.Holds xs) : q.tail = 0 ↔ xs = [] := by
  rw [h.tail]
  rcases List.eq_nil_or_concat xs with rfl | ⟨ys, y, rfl⟩
  · simp
  · rw [List.concat_eq_append, List.getLastD_concat]
    simpa using h.linked.ne_null y (by simp)

@[simp] theorem next_setNext (q : XTQueue) (i n : ℕ) :
    (q.setNext i n).next = Function.update q.next i n := by
  funext x
  by_cases hx : x = i
  · subst hx
    simp [XTQueue.next, XTQueue.setNext]
  · simp [XTQueue.next, XTQueue.setNext, hx]

@[simp] theorem data_setNext (q : XTQueue) (i n : ℕ) : (q.setNext i n).data = q.data := by
  funext x
  by_cases hx : x = i
  · subst hx
    simp [XTQueue.data, XTQueue.setNext]
  · simp [XTQueue.data, XTQueue.setNext, hx]

/-! ### Single calls -/

theorem xtPushQueue_nil (hhead : q.head = 0) (htail : q.tail = 0) (data block : ℕ) :
    (xtPushQueue q data block).1 =
      { xtCreateQueueNode q data block with head := block, tail := block } := by
  have hhead' : (xtCreateQueueNode q data block).head = 0 := hhead
  have htail' : (xtCreateQueueNode q data block).tail = 0 := htail
  simp only [xtPushQueue, htail', hhead', if_true]

theorem xtPushQueue_cons (hhead : q.head ≠ 0) (htail : q.tail ≠ 0) (data block : ℕ) :
    (xtPushQueue q data block).1 =
      { (xtCreateQueueNode q data block).setNext q.tail block with tail := block } := by
  have hhead' : ((xtCreateQueueNode q data block).setNext q.tail block).head ≠ 0 := hhead
  have htail' : (xtCreateQueueNode q data block).tail = q.tail := rfl
  simp only [xtPushQueue, htail', if_neg htail, if_neg hhead']

/-- A push puts its block behind the last node. -/
theorem holds_push (h : q.Holds xs) (data : ℕ) {block : ℕ} (hblock : block ≠ 0)
    (hnew : q.used block = false) :
    (xtPushQueue q data block).1.Holds (xs ++ [block]) ∧
      (xtPushQueue q data block).1.contents (xs ++ [block]) = q.contents xs ++ [data] := by
  have hmem : block ∉ xs := fun hin => by
    rw [h.used block hin] at hnew
    cases hnew
  have hne : ∀ x ∈ xs, x ≠ block := fun x hx heq => hmem (heq ▸ hx)
  have hnode : ∀ x ∈ xs, (xtCreateQueueNode q data block).nodes x = q.nodes x :=
    fun x hx => Function.update_of_ne (hne x hx) _ _
  have hblocknode : (xtCreateQueueNode q data block).nodes block = ⟨data, 0⟩ :=
    Function.update_self _ _ _
  have hlinked : Linked 0 (xtCreateQueueNode q data block).next q.head xs 0 :=
    h.linked.congr fun x hx => congrArg XTQueueNode.next (hnode x hx)
  have hused : ∀ x ∈ xs ++ [block], (xtCreateQueueNode q data block).used x = true := by
    intro x hx
    obtain hx | hx := List.mem_append.mp hx
    · exact (Function.update_of_ne (hne x hx) _ _).trans (h.used x hx)
    · obtain rfl := List.mem_singleton.mp hx
      exact Function.update_self _ _ _
  have hcontents : (xs ++ [block]).map (xtCreateQueueNode q data block).data =
      q.contents xs ++ [data] := by
    rw [List.map_append, XTQueue.contents]
    congr 1
    · exact List.map_congr_left fun x hx => congrArg XTQueueNode.data (hnode x hx)
    · exact congrArg (fun n => [XTQueueNode.data n]) hblocknode
  by_cases hempty : xs = []
  · rw [xtPushQueue_nil (h.head_eq_zero_iff.mpr hempty) (h.tail_eq_zero_iff.mpr hempty)]
    subst hempty
    exact ⟨⟨⟨rfl, hblock, congrArg XTQueueNode.next hblocknode⟩, rfl, hused⟩, hcontents⟩
  · have htail := mt h.tail_eq_zero_iff.mp hempty
    rw [xtPushQueue_cons (mt h.head_eq_zero_iff.mp hempty) htail]
    refine ⟨⟨?_, by simp, hused⟩, ?_⟩
    · -- the old last node now links to the new one
      obtain ⟨ys, y, rfl⟩ := (List.eq_nil_or_concat xs).resolve_left hempty
      rw [List.concat_eq_append] at hlinked hmem h ⊢
      have hy : q.tail = y := by rw [h.tail, List.getLastD_concat]
      have hins := hlinked.insert hblock hmem (congrArg XTQueueNode.next hblocknode)
      change Linked 0 ((xtCreateQueueNode q data block).setNext q.tail block).next q.head _ 0
      rw [next_setNext, hy, List.append_assoc]
      exact hins
    · rw [← hcontents]
      exact congrArg (fun f => (xs ++ [block]).map f)
        (data_setNext (xtCreateQueueNode q data block) q.tail block)

theorem xtPopQueue_nil (hhead : q.head = 0) : xtPopQueue q = (q, .invalidParameter, none) :=
  if_pos hhead

/-- Taking the nodes of a shorter chain out of use keeps it. -/
theorem XTQueue.Holds.free (h : q.Holds xs) {x : ℕ} (hx : x ∉ xs) : (q.free x).Holds xs := by
  refine ⟨h.linked, h.tail, fun y hy => ?_⟩
  have hne : y ≠ x := fun heq => hx (heq ▸ hy)
  exact (Function.update_of_ne hne _ _).trans (h.used y hy)

/-- A pop takes the first node out and returns its datum. -/
theorem holds_pop {x : ℕ} (h : q.Holds (x :: xs)) :
    (xtPopQueue q).1.Holds xs ∧ (xtPopQueue q).1.contents xs = q.contents xs ∧
      (xtPopQueue q).2 = (.success, some (q.data x)) := by
  obtain ⟨hhead, hx, hrest⟩ := h.linked
  have hmem := (List.nodup_cons.mp h.linked.nodup).1
  have hq : q.head ≠ 0 := hhead ▸ hx
  rw [xtPopQueue, if_neg hq, hhead]
  refine ⟨?_, ?_, rfl⟩
  · refine XTQueue.Holds.free ?_ hmem
    have hused := fun y hy => h.used y (List.mem_cons_of_mem x hy)
    cases xs with
    | nil =>
      have hnext : q.next x = 0 := hrest
      simp only [hnext, if_true]
      exact ⟨rfl, rfl, hused⟩
    | cons y ys =>
      have hnext : q.next x ≠ 0 := hrest.1 ▸ hrest.2.1
      simp only [if_neg hnext]
      exact ⟨hrest, h.tail, hused⟩
  · dsimp only
    split_ifs <;> rfl

/-- Redirecting the link to the node behind `pre`, as the removal does it. -/
theorem linked_relink {pre post : List ℕ} {x : ℕ}
    (h : Linked 0 q.next q.head (pre ++ x :: post) 0) {q₁ : XTQueue}
    (hq₁ : q₁ = if pre.getLastD 0 = 0 then { q with head := q.next x }
      else q.setNext (pre.getLastD 0) (q.next x)) :
    Linked 0 q₁.next q₁.head (pre ++ post) 0 ∧ q₁.tail = q.tail ∧ q₁.used = q.used ∧
      q₁.data = q.data := by
  rcases List.eq_nil_or_concat pre with rfl | ⟨ys, y, rfl⟩
  · rw [if_pos List.getLastD_nil] at hq₁
    subst hq₁
    exact ⟨h.2.2, rfl, rfl, rfl⟩
  · rw [List.concat_eq_append] at h hq₁ ⊢
    have hy : y ≠ 0 := h.ne_null y (by simp)
    rw [List.getLastD_concat, if_neg hy] at hq₁
    subst hq₁
    rw [next_setNext, data_setNext]
    rw [List.append_assoc] at h ⊢
    exact ⟨h.unlink, rfl, rfl, rfl⟩

/-- A removal leaves the queue as it is, or takes out the first node with the datum. -/
theorem holds_remove (h : q.Holds xs) {data fuel : ℕ} {r : XTQueue × XTResult}
    (hr : xtRemoveFromQueue fuel q data = some r) :
    data ∉ q.contents xs ∧ r = (q, .notFound) ∨
      data ∈ q.contents xs ∧ r.2 = .success ∧ ∃ ys, r.1.Holds ys ∧
        r.1.contents ys = (q.contents xs).erase data := by
  rw [xtRemoveFromQueue, Option.map_eq_some_iff] at hr
  obtain ⟨⟨prev, i⟩, hscan, rfl⟩ := hr
  obtain ⟨pre, post, rfl, hsplit, hpre, hpost⟩ := h.linked.scan_split hscan
  have hnotin : data ∉ pre.map q.data := by
    intro hin
    obtain ⟨x, hx, hdata⟩ := List.mem_map.mp hin
    simpa [hdata] using hpre x hx
  cases post with
  | nil =>
    obtain ⟨-, rfl⟩ := Prod.mk.inj hsplit
    exact .inl ⟨by rwa [List.append_nil, XTQueue.contents], rfl⟩
  | cons x post =>
    obtain ⟨rfl, rfl⟩ : pre.getLastD 0 = prev ∧ x = i := Prod.mk.inj hsplit.symm
    right
    have hdata : q.data x = data := by simpa using hpost x post rfl
    have hx : x ≠ 0 := h.linked.ne_null x (by simp)
    have hnd := h.linked.nodup
    have hmem : x ∉ pre ++ post := by
      rw [List.nodup_append, List.nodup_cons] at hnd
      rw [List.mem_append, not_or]
      exact ⟨fun hin => hnd.2.2 x hin x List.mem_cons_self rfl, hnd.2.1.1⟩
    have hnext : q.next x = post.headD 0 := by
      obtain ⟨b, -, rfl, -, hrest⟩ := linked_append.mp h.linked
      exact hrest.head
    have hcontents : q.contents (pre ++ post) = (q.contents (pre ++ x :: post)).erase data := by
      rw [XTQueue.contents, XTQueue.contents, List.map_append, List.map_append, List.map_cons,
        hdata, List.erase_append_right (a := data) _ hnotin, List.erase_cons_head]
    obtain ⟨hlink, htail, hused, hdata₁⟩ := linked_relink h.linked rfl
    dsimp only
    rw [if_neg hx]
    generalize (if pre.getLastD 0 = 0 then { q with head := q.next x }
      else q.setNext (pre.getLastD 0) (q.next x)) = q₁ at hlink htail hused hdata₁ ⊢
    refine ⟨by simp [XTQueue.contents, hdata], rfl, pre ++ post,
      XTQueue.Holds.free ?_ hmem, ?_⟩
    · have hkeep : ∀ y ∈ pre ++ post, q₁.used y = true := fun y hy => by
        rw [hused]
        exact h.used y (by simp only [List.mem_append, List.mem_cons] at hy ⊢; tauto)
      cases post with
      | nil =>
        have hnext : q.next x = 0 := hnext
        rw [if_pos hnext]
        exact ⟨hlink, by rw [List.append_nil], hkeep⟩
      | cons y ys =>
        have hy : y ≠ 0 := h.linked.ne_null y (by simp)
        rw [if_neg (hnext.trans_ne hy)]
        refine ⟨hlink, ?_, hkeep⟩
        rw [htail, h.tail]
        simp only [List.getLastD_eq_getLast?, List.getLast?_append, List.getLast?_cons_cons]
    · rw [← hcontents]
      split_ifs <;> exact congrArg (fun f => (pre ++ post).map f) hdata₁

theorem remove_isSome (h : q.Holds xs) {fuel : ℕ} (hfuel : xs.length < fuel) (data : ℕ) :
    (xtRemoveFromQueue fuel q data).isSome := by
  rw [xtRemoveFromQueue, h.linked.scan_eq _ _ hfuel]
  rfl

/-! ### Sequences of calls -/

theorem holds_create (nodes : ℕ → XTQueueNode) (used : ℕ → Bool) :
    (xtCreateQueue nodes used).Holds [] :=
  ⟨rfl, rfl, by simp⟩

/-- One call on the queue is the same call on its list, and one that fails changes nothing. -/
theorem exec_spec (h : q.Holds xs) {fuel : ℕ} {op : Op} {r : XTQueue × Reply}
    (hr : q.exec fuel op = some r) :
    (∃ ys, r.1.Holds ys ∧ r.1.contents ys = (op.spec (q.contents xs)).1) ∧
      r.2 = (op.spec (q.contents xs)).2 ∧ (r.2.1 ≠ .success → r.1 = q) := by
  cases op with
  | push data block =>
    rw [XTQueue.exec] at hr
    split_ifs at hr with hnew
    obtain rfl := Option.some.inj hr
    obtain ⟨hholds, hcontents⟩ := holds_push h data hnew.1 hnew.2
    exact ⟨⟨_, hholds, hcontents⟩, rfl, fun hfail => absurd rfl hfail⟩
  | pop =>
    obtain rfl := Option.some.inj hr
    cases xs with
    | nil =>
      rw [xtPopQueue_nil (h.head_eq_zero_iff.mpr rfl)]
      exact ⟨⟨[], h, rfl⟩, rfl, fun _ => rfl⟩
    | cons x xs =>
      obtain ⟨hholds, hcontents, hreply⟩ := holds_pop h
      refine ⟨⟨xs, hholds, hcontents⟩, hreply, fun hfail => ?_⟩
      rw [hreply] at hfail
      exact absurd rfl hfail
  | remove data =>
    rw [XTQueue.exec, Option.map_eq_some_iff] at hr
    obtain ⟨r, hr, rfl⟩ := hr
    rw [Op.spec]
    obtain ⟨hmem, rfl⟩ | ⟨hmem, hsuccess, ys, hholds, hcontents⟩ := holds_remove h hr
    · rw [if_neg hmem]
      exact ⟨⟨xs, h, rfl⟩, rfl, fun _ => rfl⟩
    · rw [if_pos hmem, hsuccess]
      exact ⟨⟨ys, hholds, hcontents⟩, rfl, fun hfail => absurd rfl hfail⟩

theorem run_spec {fuel : ℕ} {ops : List Op} (h : q.Holds xs) {rs : List Reply}
    (hrun : q.run fuel ops = some (q', rs)) :
    rs = (specRun (q.contents xs) ops).2 ∧
      ∃ ys, q'.Holds ys ∧ q'.contents ys = (specRun (q.contents xs) ops).1 := by
  induction ops generalizing q xs rs with
  | nil =>
    obtain ⟨rfl, rfl⟩ := Prod.mk.inj (Option.some.inj hrun)
    exact ⟨rfl, xs, h, rfl⟩
  | cons op ops ih =>
    rw [XTQueue.run, Option.bind_eq_some_iff] at hrun
    obtain ⟨r, hr, hrun⟩ := hrun
    obtain ⟨r', hr', heq⟩ := Option.map_eq_some_iff.mp hrun
    obtain ⟨rfl, rfl⟩ := Prod.mk.inj heq
    obtain ⟨⟨ys, hholds, hcontents⟩, hreply, -⟩ := exec_spec h hr
    obtain ⟨hrs, zs, hzs, hlast⟩ := ih hholds hr'
    rw [hcontents] at hrs hlast
    exact ⟨by rw [specRun, hreply, hrs], zs, hzs, hlast⟩

/-- Every sequence of calls on a new queue behaves as the same calls on a list: the replies are
    those of the list, the nodes from `head` hold the list, `tail` is the last of them, and a
    call that fails changes nothing. A call on the queue reached always returns. -/
theorem queue_refines_list {nodes : ℕ → XTQueueNode} {used : ℕ → Bool} {fuel : ℕ}
    {ops : List Op} {rs : List Reply}
    (hrun : (xtCreateQueue nodes used).run fuel ops = some (q, rs)) :
    rs = (specRun [] ops).2 ∧ (q.head = 0 ↔ q.tail = 0) ∧
      (∃ xs, Linked 0 q.next q.head xs 0 ∧ q.tail = xs.getLastD 0 ∧
        xs.map q.data = (specRun [] ops).1) ∧
      (∀ op r, q.exec fuel op = some r → r.2.1 ≠ .success → r.1 = q) ∧
      (∀ data block, block ≠ 0 → q.used block = false →
        (q.exec fuel (.push data block)).isSome) ∧
      (q.exec fuel .pop).isSome ∧
      ∀ data, (specRun [] ops).1.length < fuel → (q.exec fuel (.remove data)).isSome := by
  obtain ⟨hrs, xs, h, hcontents⟩ := run_spec (holds_create nodes used) hrun
  refine ⟨hrs, h.head_eq_zero_iff.trans h.tail_eq_zero_iff.symm,
    ⟨xs, h.linked, h.tail, hcontents⟩, ?_, ?_, rfl, ?_⟩
  · intro op r hr hfail
    exact (exec_spec h hr).2.2 hfail
  · intro data block hblock hnew
    rw [XTQueue.exec, if_pos ⟨hblock, hnew⟩]
    rfl
  · intro data hfuel
    rw [← show _ = (specRun [] ops).1 from hcontents, XTQueue.contents, List.length_map] at hfuel
    rw [XTQueue.exec, Option.isSome_map]
    exact remove_isSome h hfuel data

/-- Two pushes, the removal of the second datum and a pop. -/
theorem queue_refines_list_four :
    ∃ q rs, (xtCreateQueue (fun _ => ⟨0, 0⟩) fun _ => false).run 3
        [.push 5 1, .push 6 2, .remove 6, .pop] = some (q, rs) ∧
      rs = [(.success, none), (.success, none), (.success, none), (.success, some 5)] := by
  have hrun : ((xtCreateQueue (fun _ => ⟨0, 0⟩) fun _ => false).run 3
      [.push 5 1, .push 6 2, .remove 6, .pop]).isSome := by decide
  obtain ⟨⟨q, rs⟩, hq⟩ := Option.isSome_iff_exists.mp hrun
  exact ⟨q, rs, hq, (queue_refines_list hq).1⟩

end XTOS.Queue
