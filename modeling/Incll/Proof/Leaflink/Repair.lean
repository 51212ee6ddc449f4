import Incll.Proof.Leaflink.Neighbours
import Incll.Proof.Leaflink.Touched
import Incll.Proof.Log.NextPrev
import Incll.Proof.Tree.Sample

/-! # `undo_next_prev` repairs the list of leaves -/

namespace Incll.Proof.Leaflink
open Incll.Lib Incll.Model Incll.Model.Leaflink Incll.Proof.Tree Incll.Proof.Log

variable {W : Type}

def linksOf (l : Leaf) : Links := ⟨⟨l.body.next, l.body.nextMark⟩, l.body.prev⟩

/-- `next_` of the leaf `a` is what the sequence of leaves says. -/
def NextRight (all : List Addr) (s : St W) (a : Addr) : Prop :=
  ∀ xs ys, all = xs ++ a :: ys →
    ∃ l, kindAt s a = some (.leaf l) ∧ (linksOf l).next = (inOrder xs ys).next

def PrevRight (all : List Addr) (s : St W) (a : Addr) : Prop :=
  ∀ xs ys, all = xs ++ a :: ys →
    ∃ l, kindAt s a = some (.leaf l) ∧ (linksOf l).prev = (inOrder xs ys).prev

variable {s t : St W} {all : List Addr} {a b : Addr}

/-- Right links stay right. -/
structure Improves (all : List Addr) (s t : St W) : Prop where
  relinked : Relinked s t
  next : ∀ a, NextRight all s a → NextRight all t a
  prev : ∀ a, PrevRight all s a → PrevRight all t a

theorem Improves.refl (s : St W) : Improves all s s := ⟨.refl s, fun _ => id, fun _ => id⟩

theorem Improves.trans {u : St W} (h : Improves all s t) (h' : Improves all t u) :
    Improves all s u :=
  ⟨h.relinked.trans h'.relinked, fun a right => h'.next a (h.next a right),
    fun a right => h'.prev a (h.prev a right)⟩

/-- A store that gives a leaf right links or leaves them as they are. -/
theorem modifyBody_improves (all : List Addr) {l : Leaf} (here : kindAt s a = some (.leaf l))
    {f : LeafBody → LeafBody} (harmless : Harmless f)
    (next : (linksOf { l with body := f l.body }).next = (linksOf l).next ∨
      ∀ xs ys, all = xs ++ a :: ys → (linksOf { l with body := f l.body }).next = (inOrder xs ys).next)
    (prev : (linksOf { l with body := f l.body }).prev = (linksOf l).prev ∨
      ∀ xs ys, all = xs ++ a :: ys → (linksOf { l with body := f l.body }).prev = (inOrder xs ys).prev) :
    ∃ t, (M.modifyBody a f : M W Unit) s = some ((), t) ∧ Improves all s t ∧
      kindAt t a = some (.leaf { l with body := f l.body }) := by
  obtain ⟨n, -, kind, run⟩ := node_run here
  have leafRun : (M.leaf a : M W Leaf) s = some (l, s) := by
    simp only [M.leaf]
    rw [run_bind run, kind]
    rfl
  have done : (M.modifyBody a f : M W Unit) s =
      some ((), s.write a n (.leaf { l with body := f l.body }) (.mapBody f)) := by
    simp only [M.modifyBody]
    rw [run_bind leafRun]
    simp only [M.setKind]
    rw [run_bind run]
    rfl
  have own : kindAt (s.write a n (.leaf { l with body := f l.body }) (.mapBody f)) a =
      some (.leaf { l with body := f l.body }) := by simp
  refine ⟨_, done, ⟨relinked_modifyBody harmless _ _ done, ?_, ?_⟩, own⟩
  · intro b right xs ys split
    obtain ⟨m, found, same⟩ := right xs ys split
    by_cases mine : b = a
    · subst mine
      rw [here] at found
      cases found
      refine ⟨_, own, ?_⟩
      obtain kept | stored := next
      · rw [kept, same]
      · exact stored xs ys split
    · exact ⟨m, by simp [mine, found], same⟩
  · intro b right xs ys split
    obtain ⟨m, found, same⟩ := right xs ys split
    by_cases mine : b = a
    · subst mine
      rw [here] at found
      cases found
      refine ⟨_, own, ?_⟩
      obtain kept | stored := prev
      · rw [kept, same]
      · exact stored xs ys split
    · exact ⟨m, by simp [mine, found], same⟩

/-- The place of a leaf in a list without repetition. -/
theorem split_unique (distinct : all.Nodup) {xs xs' ys ys' : List Addr} (h : all = xs ++ a :: ys)
    (h' : all = xs' ++ a :: ys') : xs = xs' ∧ ys = ys' := by
  rw [h, List.nodup_append, List.nodup_cons] at distinct
  have before : a ∉ xs := fun member => distinct.2.2 a member a List.mem_cons_self rfl
  obtain ⟨front, -, back⟩ :=
    (List.append_cons_inj_of_notMem before distinct.2.1.1).mp (h.symm.trans h')
  exact ⟨front, back⟩

/-- A node that was a leaf is one. -/
theorem relinked_leaf (h : Relinked s t) {l : Leaf} (here : kindAt s a = some (.leaf l)) :
    ∃ l, kindAt t a = some (.leaf l) := by
  have same := h.kinds a
  rw [here] at same
  generalize after : kindAt t a = k at same
  cases same with
  | leaf => exact ⟨_, rfl⟩

/-- The leaf before `a` is led to `a`. -/
theorem storePrevNext {before after : List Addr} (nodup : all.Nodup) (nonnull : ∀ b ∈ all, b ≠ 0)
    (leaves : ∀ b ∈ all, ∃ l, kindAt s b = some (.leaf l)) (split : all = before ++ a :: after) :
    ∃ t, (if before.getLastD 0 ≠ 0 then M.modifyBody (before.getLastD 0) (.setNext a)
        else pure () : M W Unit) s = some ((), t) ∧ Improves all s t ∧
      ∀ p, Before all p a → NextRight all t p := by
  obtain rfl | ⟨bs, b, rfl⟩ := before.eq_nil_or_concat'
  · refine ⟨s, rfl, .refl s, ?_⟩
    rintro p ⟨xs, ys, other⟩
    have front := (split_unique nodup split
      (show all = (xs ++ [p]) ++ a :: ys by simp [other])).1
    simp at front
  · have whole : all = bs ++ b :: a :: after := by simp [split]
    have member : b ∈ all := by simp [whole]
    obtain ⟨l, here⟩ := leaves b member
    have right (xs ys : List Addr) (other : all = xs ++ b :: ys) :
        (inOrder xs ys).next = ⟨a, false⟩ := by
      obtain ⟨rfl, rfl⟩ := split_unique nodup whole other
      rfl
    obtain ⟨t, run, improves, stored⟩ := modifyBody_improves all here
      (f := .setNext a) (fun _ => rfl)
      (.inr fun xs ys other => (right xs ys other).symm) (.inl rfl)
    refine ⟨t, ?_, improves, ?_⟩
    · rw [List.getLastD_concat, if_pos (nonnull b member)]
      exact run
    · rintro p ⟨xs, ys, other⟩
      have front := (split_unique nodup split
      (show all = (xs ++ [p]) ++ a :: ys by simp [other])).1
      obtain ⟨rfl, same⟩ := List.append_inj' front rfl
      cases same
      exact fun xs ys other => ⟨_, stored, (right xs ys other).symm⟩

/-- The leaf behind `a` is led back to `a`. -/
theorem storeNextPrev {before after : List Addr} (nodup : all.Nodup) (nonnull : ∀ b ∈ all, b ≠ 0)
    (leaves : ∀ b ∈ all, ∃ l, kindAt s b = some (.leaf l)) (split : all = before ++ a :: after) :
    ∃ t, (if after.headD 0 ≠ 0 then M.modifyBody (after.headD 0) (.setPrev a)
        else pure () : M W Unit) s = some ((), t) ∧ Improves all s t ∧
      ∀ m, Before all a m → PrevRight all t m := by
  cases after with
  | nil =>
      refine ⟨s, rfl, .refl s, ?_⟩
      rintro m ⟨xs, ys, other⟩
      cases (split_unique nodup split other).2
  | cons b after =>
      have whole : all = (before ++ [a]) ++ b :: after := by simp [split]
      have member : b ∈ all := by simp [whole]
      obtain ⟨l, here⟩ := leaves b member
      have right (xs ys : List Addr) (other : all = xs ++ b :: ys) : (inOrder xs ys).prev = a := by
        obtain ⟨rfl, rfl⟩ := split_unique nodup whole other
        simp [inOrder]
      obtain ⟨t, run, improves, stored⟩ := modifyBody_improves all here
        (f := .setPrev a) (fun _ => rfl) (.inl rfl)
        (.inr fun xs ys other => (right xs ys other).symm)
      refine ⟨t, ?_, improves, ?_⟩
      · rw [List.headD_cons, if_pos (nonnull b member)]
        exact run
      · rintro m ⟨xs, ys, other⟩
        cases (split_unique nodup split other).2
        exact fun xs ys other => ⟨_, stored, (right xs ys other).symm⟩

/-- A block that is run under a condition, in front of another one. -/
theorem if_bind {c : Prop} [Decidable c] (m k : M W Unit) :
    (if c then m >>= fun _ => k else k) = (if c then m else pure ()) >>= fun _ => k := by
  split
  · rfl
  · rw [pure_bind]

/-- All links at a leaf are right, and those that lead back to it. -/
structure Repaired (all : List Addr) (a : Addr) (t : St W) : Prop where
  next : NextRight all t a
  prev : PrevRight all t a
  before : ∀ p, Before all p a → NextRight all t p
  behind : ∀ m, Before all a m → PrevRight all t m

theorem Repaired.improves (h : Repaired all a s) (improves : Improves all s t) : Repaired all a t :=
  ⟨improves.next a h.next, improves.prev a h.prev,
    fun p before => improves.next p (h.before p before),
    fun m behind => improves.prev m (h.behind m behind)⟩

theorem relink_run {root p : Addr} {total nodes before after : List Addr} {above : Nat}
    (place : Inside (kindAt s) root total all above p a nodes before [a] after)
    (whole : Spans (kindAt s) 0 root total all) (nonnull : ∀ b ∈ all, b ≠ 0)
    (distinct : total.Nodup) (space : total.length ≤ s.fresh) :
    ∃ t, (M.relink a : M W Unit) s = some ((), t) ∧ Improves all s t ∧ Repaired all a t := by
  have nodup : all.Nodup := (spans_sublist whole).nodup distinct
  have split : all = before ++ a :: after := by rw [inside_all place]; simp
  have enough : above < s.fresh := by
    have depth := inside_depth place
    have nodes := List.length_pos_of_mem (spans_root (inside_spans place))
    omega
  have leaves {t : St W} (improves : Improves all s t) (b : Addr) (member : b ∈ all) :
      ∃ l, kindAt t b = some (.leaf l) := by
    obtain ⟨l, here⟩ := spans_leaf whole b member
    exact relinked_leaf improves.relinked here
  simp only [M.relink]
  rw [run_bind fuel_run, run_bind (getPrevSafe_run place distinct space enough),
    run_bind fuel_run, run_bind (getNextSafe_run place distinct space enough)]
  obtain ⟨l, here⟩ := leaves (.refl s) a (by simp [split])
  have own (xs ys : List Addr) (other : all = xs ++ a :: ys) :
      inOrder xs ys = ⟨⟨after.headD 0, false⟩, before.getLastD 0⟩ := by
    obtain ⟨rfl, rfl⟩ := split_unique nodup split other
    rfl
  obtain ⟨t₁, run₁, improves₁, here₁⟩ := modifyBody_improves all here
    (f := .setLinks (after.headD 0) (before.getLastD 0)) (fun _ => rfl)
    (.inr fun xs ys other => by rw [own xs ys other]; rfl)
    (.inr fun xs ys other => by rw [own xs ys other]; rfl)
  have next₁ : NextRight all t₁ a := fun xs ys other => ⟨_, here₁, by rw [own xs ys other]; rfl⟩
  have prev₁ : PrevRight all t₁ a := fun xs ys other => ⟨_, here₁, by rw [own xs ys other]; rfl⟩
  obtain ⟨t₂, run₂, improves₂, before₂⟩ := storePrevNext nodup nonnull (leaves improves₁) split
  obtain ⟨t₃, run₃, improves₃, behind₃⟩ :=
    storeNextPrev nodup nonnull (leaves (improves₁.trans improves₂)) split
  rw [run_bind run₁, if_bind, run_bind run₂, run₃]
  refine ⟨t₃, rfl, (improves₁.trans improves₂).trans improves₃, ?_, ?_, ?_, behind₃⟩
  · exact (improves₂.trans improves₃).next a next₁
  · exact (improves₂.trans improves₃).prev a prev₁
  · exact fun p before => improves₃.next p (before₂ p before)

/-! The whole log. -/

/-- The nodes of a layer whose internodes, child and parent pointers are in order. -/
structure Layer (root : Addr) (total all : List Addr) (s : St W) : Prop where
  spans : Spans (kindAt s) 0 root total all
  distinct : total.Nodup
  null : kindAt s 0 = none
  below : ∀ a, (kindAt s a).isSome → a < s.fresh

theorem Layer.relinked {root : Addr} {total : List Addr} (h : Layer root total all s)
    (relinked : Relinked s t) : Layer root total all t where
  spans := spans_same h.spans relinked.kinds
  distinct := h.distinct
  null := by
    have same := relinked.kinds 0
    rw [h.null] at same
    generalize after : kindAt t 0 = k at same
    cases same
    rfl
  below a here := by
    rw [relinked.fresh]
    refine h.below a ?_
    have same := relinked.kinds a
    generalize after : kindAt t a = k at same here
    generalize before : kindAt s a = k' at same
    cases same with
    | none => exact here
    | _ => rfl

theorem Layer.space {root : Addr} {total : List Addr} (h : Layer root total all s) :
    total.length ≤ s.fresh := by
  have inside : total ⊆ List.range s.fresh := fun a member =>
    List.mem_range.mpr (h.below a (spans_kinds h.spans a member))
  simpa using (h.distinct.subperm inside).length_le

theorem Layer.nonnull {root : Addr} {total : List Addr} (h : Layer root total all s) :
    ∀ a ∈ total, a ≠ 0 := by
  rintro a member rfl
  have here := spans_kinds h.spans 0 member
  simp [h.null] at here

theorem treat_run {root : Addr} {total : List Addr} (h : Layer root total all s)
    (known : a ∈ all ∨ ∃ i, kindAt s a = some (.internode i)) :
    ∃ t, (M.treat a : M W Unit) s = some ((), t) ∧ Improves all s t ∧
      (a ∈ all → Repaired all a t) := by
  obtain member | ⟨i, here⟩ := known
  · obtain ⟨l, here⟩ := spans_leaf h.spans a member
    obtain ⟨n, -, kind, run⟩ := node_run here
    have top := Inside.root (h.nonnull root (spans_root h.spans)) h.spans
    obtain ⟨above, p, nodes, before, after, place⟩ := inside_leaf h.spans top a member
    obtain ⟨t, relinks, improves, repaired⟩ := relink_run place h.spans
      (fun b leaf => h.nonnull b ((spans_sublist h.spans).subset leaf)) h.distinct h.space
    refine ⟨t, ?_, improves, fun _ => repaired⟩
    simp only [M.treat]
    rw [run_bind run, kind]
    exact relinks
  · obtain ⟨n, -, kind, run⟩ := node_run here
    refine ⟨s, ?_, .refl s, fun member => ?_⟩
    · simp only [M.treat]
      rw [run_bind run, kind]
      rfl
    · obtain ⟨l, leaf⟩ := spans_leaf h.spans a member
      rw [here] at leaf
      cases leaf

/-- Any list of nodes, in any order. -/
theorem treatAll_run {root : Addr} {total : List Addr} (h : Layer root total all s)
    {as : List Addr} (known : ∀ a ∈ as, a ∈ all ∨ ∃ i, kindAt s a = some (.internode i)) :
    ∃ t, as.foldlM (fun s a => ((M.treat a : M W Unit) s).map Prod.snd) s = some t ∧
      Improves all s t ∧ ∀ a ∈ as, a ∈ all → Repaired all a t := by
  induction as generalizing s with
  | nil => exact ⟨s, rfl, .refl s, by simp⟩
  | cons a as ih =>
      obtain ⟨t, run, improves, repaired⟩ := treat_run h (known a (by simp))
      have known' : ∀ b ∈ as, b ∈ all ∨ ∃ i, kindAt t b = some (.internode i) := by
        intro b member
        refine (known b (List.mem_cons_of_mem _ member)).imp_right fun ⟨i, here⟩ => ?_
        have same := improves.relinked.kinds b
        rw [here] at same
        generalize after : kindAt t b = k at same
        cases same
        exact ⟨i, rfl⟩
      obtain ⟨u, rest, improves', repaired'⟩ := ih (h.relinked improves.relinked) known'
      refine ⟨u, ?_, improves.trans improves', ?_⟩
      · rw [List.foldlM_cons, run]
        exact rest
      · intro b member leaf
        obtain rfl | member := List.mem_cons.mp member
        · exact (repaired leaf).improves improves'
        · exact repaired' b member leaf

/-- The visits of `undo_next_prev`, one after another. -/
theorem visits {S : Type} [NodeImage W] (visit : S → Addr → Option S) {log : PExtNodeLogger W}
    {fuel flush : Nat} {as bs : List Addr}
    (walk : PExtNodeLogger.undoNextPrev treated log fuel flush as = some bs) :
    ∃ es, bs = as ++ es ∧
      ∀ s, PExtNodeLogger.undoNextPrev visit log fuel flush s = es.foldlM visit s := by
  induction fuel generalizing flush as with
  | zero =>
      simp only [PExtNodeLogger.undoNextPrev, Option.ite_none_right_eq_some,
        Option.some.injEq] at walk
      obtain ⟨done, rfl⟩ := walk
      exact ⟨[], by simp, fun s => by simp [PExtNodeLogger.undoNextPrev, done]⟩
  | succ fuel ih =>
      by_cases done : flush = log.curr
      · rw [undoNextPrev_done _ _ done] at walk
        cases walk
        exact ⟨[], by simp, fun s => undoNextPrev_done _ _ done s⟩
      · simp only [PExtNodeLogger.undoNextPrev, if_neg done, bind, Option.bind_eq_some_iff,
          treated, Option.some.injEq] at walk
        obtain ⟨addr, first, back, ends, size, header, _, rfl, rest⟩ := walk
        obtain ⟨es, rfl, run⟩ := ih rest
        refine ⟨Word.val addr :: es, by simp, fun s => ?_⟩
        simp only [PExtNodeLogger.undoNextPrev, if_neg done, first, ends, header, bind,
          Option.bind_some, List.foldlM_cons]
        exact congrArg _ (funext run)

/-- What a crash leaves of the tree of `c` when all recorded nodes are copied back: internodes, child
and parent pointers as they were, and the links of a leaf that is not recorded as they were last
written back. -/
structure CopiedBack {nthreads : Nat} (total all : List Addr) (c : St W) (s : State nthreads)
    (u : St W) : Prop where
  shape : ∀ a ∈ total, ∀ k, kindAt c a = some k → ∃ k', kindAt u a = some k' ∧ SameShape k k'
  links : ∀ a ∈ all, a ∉ s.log → ∀ l, kindAt u a = some (.leaf l) → linksOf l = s.memory a
  null : kindAt u 0 = none
  below : ∀ a, (kindAt u a).isSome → a < u.fresh

theorem links_repaired [NodeImage W] {nthreads globalepoch root fuel : Nat} {total es : List Addr}
    {c u : St W} {crash : State nthreads} (checkpointed : Layer root total all c)
    (run : (machine nthreads globalepoch all).Reachable Machine.anyStep crash)
    (copied : CopiedBack total all c crash u)
    (walk : PExtNodeLogger.undoNextPrev treated u.log fuel u.log.lastFlush [] = some es)
    (logged : ∀ a ∈ crash.log, a ∈ es)
    (only : ∀ a ∈ es, a ∈ crash.log ∨ ∃ i, kindAt u a = some (.internode i)) :
    ∃ t, (M.undoNextPrev fuel u.log.lastFlush : M W Unit) u = some ((), t) ∧
      Spans (kindAt t) 0 root total all ∧
      ∀ xs a ys, all = xs ++ a :: ys →
        ∃ l, kindAt t a = some (.leaf l) ∧ linksOf l = inOrder xs ys := by
  have layer : Layer root total all u :=
    ⟨spans_shape checkpointed.spans copied.shape, checkpointed.distinct, copied.null, copied.below⟩
  have leaf (a : Addr) (member : a ∈ all) : a ≠ 0 :=
    layer.nonnull a ((spans_sublist layer.spans).subset member)
  have touched := touched_of_reachable (fun member => leaf 0 member rfl) run
  obtain ⟨es, rfl, visited⟩ := visits (fun s a => ((M.treat a : M W Unit) s).map Prod.snd) walk
  obtain ⟨t, treats, improves, repaired⟩ := treatAll_run layer fun a member =>
    (only a member).imp_left (touched.recorded a)
  refine ⟨t, ?_, (layer.relinked improves.relinked).spans, fun xs a ys split => ?_⟩
  · rw [undoNextPrev_eq _ _ _ rfl, visited, treats]
    rfl
  have member : a ∈ all := by simp [split]
  have fixed (b : Addr) (recorded : b ∈ crash.log) : Repaired all b t :=
    repaired b (logged b recorded) (touched.recorded b recorded)
  have kept (own : a ∉ crash.log) : ∃ l, kindAt u a = some (.leaf l) ∧ linksOf l = crash.memory a := by
    obtain ⟨l, here⟩ := spans_leaf layer.spans a member
    exact ⟨l, here, copied.links a member own l here⟩
  have nodup : all.Nodup := (spans_sublist layer.spans).nodup layer.distinct
  have next : NextRight all t a := by
    obtain (recorded | ⟨m, before, recorded⟩) | ⟨-, memory⟩ := touched.next xs a ys split
    · exact (fixed a recorded).next
    · exact (fixed m recorded).before a before
    · by_cases own : a ∈ crash.log
      · exact (fixed a own).next
      · obtain ⟨l, here, links⟩ := kept own
        refine improves.next a fun xs' ys' split' => ⟨l, here, ?_⟩
        obtain ⟨rfl, rfl⟩ := split_unique nodup split split'
        rw [links, memory]
  have prev : PrevRight all t a := by
    obtain (recorded | ⟨p, before, recorded⟩) | ⟨-, memory⟩ := touched.prev xs a ys split
    · exact (fixed a recorded).prev
    · exact (fixed p recorded).behind a before
    · by_cases own : a ∈ crash.log
      · exact (fixed a own).prev
      · obtain ⟨l, here, links⟩ := kept own
        refine improves.prev a fun xs' ys' split' => ⟨l, here, ?_⟩
        obtain ⟨rfl, rfl⟩ := split_unique nodup split split'
        rw [links, memory]
  obtain ⟨l, here, nextRight⟩ := next xs ys split
  obtain ⟨l', here', prevRight⟩ := prev xs ys split
  rw [here] at here'
  cases here'
  exact ⟨l, here, congrArg₂ Links.mk nextRight prevRight⟩

/-! A tree of four leaves whose second inner node has a null `child_[0]`; the crash comes when the
split of leaf 5 has written back `prev_` of leaf 6. -/

def fourLeaves (prev : Addr) : List Sample :=
  [.internode 2 [20] [2, 3] 0, .internode 1 [10] [4, 5] 1, .internode 1 [25, 30] [0, 6, 7] 1,
    .leaf (.make 2) [1] 2 0 5, .leaf (.make 2) [10] 2 4 6, .leaf (.make 2) [25] 3 prev 7,
    .leaf (.make 2) [30] 3 6 0]

theorem spans_sample {samples : List Sample} {top globalepoch failedepoch : Nat} (p a height : Nat)
    (keys children : List Nat) (nodes leaves : List (List Addr))
    (here : kindAt (sample samples top globalepoch failedepoch) a =
      some (Sample.internode height keys children p).kind)
    (spans : ∀ j < keys.length + 1, children.getD j 0 ≠ 0 →
      Spans (kindAt (sample samples top globalepoch failedepoch)) a (children.getD j 0)
        (nodes.getD j []) (leaves.getD j []))
    (null : ∀ j < keys.length + 1, children.getD j 0 = 0 →
      j = 0 ∧ 0 < keys.length ∧ nodes.getD j [] = [] ∧ leaves.getD j [] = []) :
    Spans (kindAt (sample samples top globalepoch failedepoch)) p a
      (a :: joined (nodes.getD · []) 0 (keys.length + 1))
      (joined (leaves.getD · []) 0 (keys.length + 1)) :=
  .internode (nodes.getD · []) (leaves.getD · []) here rfl
    (fun j le => spans j (Nat.lt_succ_of_le le)) fun j le => null j (Nat.lt_succ_of_le le)

theorem spans_fourLeaves (prev : Addr) :
    Spans (kindAt (sample (fourLeaves prev) 1 3 2)) 0 1 [1, 2, 4, 5, 3, 6, 7] [4, 5, 6, 7] := by
  have left : Spans (kindAt (sample (fourLeaves prev) 1 3 2)) 1 2 [2, 4, 5] [4, 5] := by
    refine spans_sample 1 2 1 [10] [4, 5] [[4], [5]] [[4], [5]] rfl ?_ (by decide)
    rintro (_ | _ | j) le nonnull
    · exact .leaf rfl rfl
    · exact .leaf rfl rfl
    · exact absurd le (by simp)
  have right : Spans (kindAt (sample (fourLeaves prev) 1 3 2)) 1 3 [3, 6, 7] [6, 7] := by
    refine spans_sample 1 3 1 [25, 30] [0, 6, 7] [[], [6], [7]] [[], [6], [7]] rfl ?_ (by decide)
    rintro (_ | _ | _ | j) le nonnull
    · exact absurd rfl nonnull
    · exact .leaf rfl rfl
    · exact .leaf rfl rfl
    · exact absurd le (by simp)
  refine spans_sample 0 1 2 [20] [2, 3] [[2, 4, 5], [3, 6, 7]] [[4, 5], [6, 7]] rfl ?_ (by decide)
  rintro (_ | _ | j) le nonnull
  · exact left
  · exact right
  · exact absurd le (by simp)

/-- The checkpoint of the four leaves, for one thread. -/
def fourLinks : State 1 where
  cache a := if a = 4 then ⟨⟨5, false⟩, 0⟩ else if a = 5 then ⟨⟨6, false⟩, 4⟩
    else if a = 6 then ⟨⟨7, false⟩, 5⟩ else ⟨⟨0, false⟩, 6⟩
  memory a := if a = 4 then ⟨⟨5, false⟩, 0⟩ else if a = 5 then ⟨⟨6, false⟩, 4⟩
    else if a = 6 then ⟨⟨7, false⟩, 5⟩ else ⟨⟨0, false⟩, 6⟩
  loggedepoch _ := 2
  notLogged _ := false
  locked _ := false
  deleted _ := false
  leaves := [4, 5, 6, 7]
  made := []
  log := []
  pc _ := .idle

theorem checkpoint_fourLinks : Checkpoint 3 [4, 5, 6, 7] fourLinks where
  leaves := rfl
  linked xs n ys split := by
    rcases xs with _ | ⟨a, _ | ⟨b, _ | ⟨c, _ | ⟨d, xs⟩⟩⟩⟩
    · cases split
      rfl
    · cases split
      rfl
    · cases split
      rfl
    · cases split
      rfl
    · simp at split
  memory := rfl
  epoch := by decide
  made := rfl
  log := rfl
  pc := rfl

def fourLog : PExtNodeLogger Cell :=
  appended (.init fun _ => .num 0) 0 ⟨5, List.replicate 48 (.num 0)⟩

theorem walk_fourLog :
    PExtNodeLogger.undoNextPrev treated fourLog 1 fourLog.lastFlush [] = some [5] := by
  have entry : EntryAt fourLog 0 ⟨5, List.replicate 48 (.num 0)⟩ :=
    entryAt_appended rfl (by decide) (by decide)
  have ring : Ring fourLog [⟨5, List.replicate 48 (.num 0)⟩] :=
    ⟨by decide, by decide, by decide, .straight ⟨entry, rfl⟩⟩
  have undone : PExtNodeLogger.undo copied 1 { fourLog with lastFlush := 0 } [] = some (_, [5]) :=
    ring_undo ring copied (Nat.le_refl 1) []
  have ends := entry.endsAt (by decide)
  have first : SameAddr fourLog 0 :=
    (sameAddr_next (by decide) ends rfl entry.header.1).mpr ⟨nofun, sameAddr_done (by decide)⟩
  obtain ⟨xs, ys, one, walk, same⟩ := walks undone []
  obtain rfl := same.mpr first
  exact walk.trans (congrArg some one.symm)

theorem links_repaired_split :
    ∃ t, (M.undoNextPrev 1 fourLog.lastFlush : M Cell Unit)
        { sample (fourLeaves 8) 1 3 2 with log := fourLog } = some ((), t) ∧
      Spans (kindAt t) 0 1 [1, 2, 4, 5, 3, 6, 7] [4, 5, 6, 7] ∧
      ∀ xs a ys, [4, 5, 6, 7] = xs ++ a :: ys →
        ∃ l, kindAt t a = some (.leaf l) ∧ linksOf l = inOrder xs ys := by
  have bounded (prev a : Addr) (here : (kindAt (sample (fourLeaves prev) 1 3 2) a).isSome) : a < 8 := by
    obtain ⟨k, found⟩ := Option.isSome_iff_exists.mp here
    exact (kindAt_sample found).1
  have layer : Layer 1 [1, 2, 4, 5, 3, 6, 7] [4, 5, 6, 7] (sample (fourLeaves 5) 1 3 2) :=
    ⟨spans_fourLeaves 5, by decide, rfl, bounded 5⟩
  have start : (machine 1 3 [4, 5, 6, 7]).Reachable Machine.anyStep fourLinks :=
    .initial checkpoint_fourLinks
  obtain ⟨crash, reachable, final⟩ := start.exists_run
    [.thread 0 (.find 5), .thread 0 .record, .thread 0 (.split 8), .thread 0 .go, .thread 0 .go,
      .thread 0 .go, .thread 0 .go, .writeBackPrev 6]
    (fun s => s.log == [5] && s.memory 4 == ⟨⟨5, false⟩, 0⟩ && s.memory 6 == ⟨⟨7, false⟩, 8⟩ &&
      s.memory 7 == ⟨⟨0, false⟩, 6⟩) (by decide)
  simp only [Bool.and_eq_true, beq_iff_eq] at final
  obtain ⟨⟨⟨log, four⟩, six⟩, seven⟩ := final
  have copied : CopiedBack [1, 2, 4, 5, 3, 6, 7] [4, 5, 6, 7] (sample (fourLeaves 5) 1 3 2) crash
      { sample (fourLeaves 8) 1 3 2 with log := fourLog } := by
    refine ⟨?_, ?_, rfl, bounded 8⟩
    · intro a member k here
      simp only [List.mem_cons, List.not_mem_nil, or_false] at member
      obtain rfl | rfl | rfl | rfl | rfl | rfl | rfl := member
      all_goals cases here
      · exact ⟨_, rfl, .internode rfl rfl rfl⟩
      · exact ⟨_, rfl, .internode rfl rfl rfl⟩
      · exact ⟨_, rfl, .leaf rfl⟩
      · exact ⟨_, rfl, .leaf rfl⟩
      · exact ⟨_, rfl, .internode rfl rfl rfl⟩
      · exact ⟨_, rfl, .leaf rfl⟩
      · exact ⟨_, rfl, .leaf rfl⟩
    · intro a member own l here
      simp only [List.mem_cons, List.not_mem_nil, or_false] at member
      obtain rfl | rfl | rfl | rfl := member
      · cases here
        exact four.symm
      · simp [log] at own
      · cases here
        exact six.symm
      · cases here
        exact seven.symm
  exact links_repaired layer reachable copied walk_fourLog (by simp [log]) (by simp [log])

end Incll.Proof.Leaflink
