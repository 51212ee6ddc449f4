import Incll.Proof.Log.Ring
import Incll.Proof.Tree.Operations

/-! # What a restart does to the memory -/

namespace Incll.Proof.Tree
open Incll.Lib Incll.Model Incll.Model.PExtNodeLogger Incll.Proof.Log

variable {W : Type}

/-! `undo` copies the images back. -/

def copyBack (heap : Addr → Option Node) (r : Addr × Node) : Addr → Option Node :=
  Function.update heap r.1 (some r.2.fixState)

theorem foldl_copyBack (records : List (Addr × Node)) (heap : Addr → Option Node) (a : Addr) :
    (records.any (·.1 == a) = false ∧ records.foldl copyBack heap a = heap a) ∨
    ∃ r ∈ records, r.1 = a ∧ records.foldl copyBack heap a = some r.2.fixState := by
  induction records generalizing heap with
  | nil => exact .inl ⟨rfl, rfl⟩
  | cons r records ih =>
      simp only [List.foldl_cons]
      rcases ih (copyBack heap r) with ⟨out, same⟩ | ⟨r', member, here⟩
      · by_cases eq : r.1 = a
        · right
          refine ⟨r, by simp, eq, ?_⟩
          rw [same, copyBack, ← eq, Function.update_self]
        · left
          refine ⟨by simp [out, eq], ?_⟩
          rw [same, copyBack, Function.update_of_ne (Ne.symm eq)]
      · exact .inr ⟨r', by simp [member], here⟩

variable [NodeImage W]

/-- The entries of the log since the last checkpoint. -/
def entries (s : St W) : List (LogEntry W) := s.recorded.map fun r => entryOf r.1 r.2

theorem foldlM_undoEntry (records : List (Addr × Node)) (heap : Addr → Option Node) :
    (records.map fun r => entryOf (W := W) r.1 r.2).foldlM undoEntry heap =
      some (records.foldl copyBack heap) := by
  induction records generalizing heap with
  | nil => rfl
  | cons r records ih =>
      simp only [List.map_cons, List.foldlM_cons, List.foldl_cons, undoEntry, entryOf,
        NodeImage.decode_encode, Option.map_some, bind, Option.bind_some]
      exact ih _

/-- The heap after `undo`. -/
def undoneHeap (s : St W) : Addr → Option Node := s.recorded.foldl copyBack s.heap

theorem undo_eq {s : St W} (ring : Ring s.log (entries s)) :
    PExtNodeLogger.undo undoEntry s.log.bufSize s.log s.heap =
      some ({ s.log with lastFlush := s.log.curr }, undoneHeap s) := by
  rw [ring_undo ring undoEntry ring.count, entries, foldlM_undoEntry]
  rfl

/-! `undo_next_prev` writes links only. -/

def LinksOnly (b b' : LeafBody) : Prop :=
  b' = { b with modstate := b'.modstate, next := b'.next, nextMark := b'.nextMark, prev := b'.prev }

theorem LinksOnly.refl (b : LeafBody) : LinksOnly b b := rfl

theorem LinksOnly.trans {b c d : LeafBody} (h : LinksOnly b c) (h' : LinksOnly c d) :
    LinksOnly b d := by
  rw [LinksOnly] at *
  rw [h', h]

/-- The node is the same up to the links of a leaf. -/
inductive SameKind : Option Kind → Option Kind → Prop
  | none : SameKind none none
  | internode {i : Internode} : SameKind (some (.internode i)) (some (.internode i))
  | leaf {incll : Incll} {b b' : LeafBody} (links : LinksOnly b b') :
      SameKind (some (.leaf ⟨incll, b⟩)) (some (.leaf ⟨incll, b'⟩))

theorem SameKind.refl (k : Option Kind) : SameKind k k := by
  cases k with
  | none => exact .none
  | some k =>
      cases k with
      | leaf l => exact .leaf (.refl _)
      | internode i => exact .internode

theorem SameKind.trans {k k' k'' : Option Kind} (h : SameKind k k') (h' : SameKind k' k'') :
    SameKind k k'' := by
  cases h with
  | none => exact h'
  | internode => exact h'
  | leaf links =>
      cases h' with
      | leaf links' => exact .leaf (links.trans links')

/-- Everything but the links, the ghost content and the list of writes is the same. -/
structure Relinked (s t : St W) : Prop where
  kinds : ∀ a, SameKind (kindAt s a) (kindAt t a)
  fresh : t.fresh = s.fresh
  root : t.root = s.root
  log : t.log = s.log
  globalepoch : t.globalepoch = s.globalepoch
  failedepoch : t.failedepoch = s.failedepoch
  committed : t.committed = s.committed
  saved : t.saved = s.saved
  observed : t.observed = s.observed
  hazards : t.hazards = s.hazards

omit [NodeImage W] in
theorem Relinked.refl (s : St W) : Relinked s s :=
  ⟨fun _ => .refl _, rfl, rfl, rfl, rfl, rfl, rfl, rfl, rfl, rfl⟩

omit [NodeImage W] in
theorem Relinked.trans {s t u : St W} (h : Relinked s t) (h' : Relinked t u) : Relinked s u :=
  ⟨fun a => (h.kinds a).trans (h'.kinds a), h'.fresh.trans h.fresh, h'.root.trans h.root,
    h'.log.trans h.log, h'.globalepoch.trans h.globalepoch, h'.failedepoch.trans h.failedepoch,
    h'.committed.trans h.committed, h'.saved.trans h.saved, h'.observed.trans h.observed,
    h'.hazards.trans h.hazards⟩

section wlp
variable {β : Type} {s : St W} {Q : β → St W → Prop} {a : Addr}

omit [NodeImage W] in
theorem wlp_node {f : Node → M W β} (h : ∀ n, s.heap a = some n → Wlp (f n) s Q) :
    Wlp (M.node a >>= f) s Q := by
  apply wlp_bind
  simp only [M.node]
  apply wlp_bind
  apply wlp_get
  cases here : s.heap a with
  | none => exact wlp_failure
  | some n => exact wlp_pure (h n here)

omit [NodeImage W] in
theorem wlp_leaf {f : Leaf → M W β}
    (h : ∀ n l, s.heap a = some n → n.kind = .leaf l → Wlp (f l) s Q) :
    Wlp (M.leaf a >>= f) s Q := by
  simp only [M.leaf, bind_assoc]
  refine wlp_node fun n here => ?_
  cases kind : n.kind with
  | leaf l =>
      simp only [pure_bind]
      exact h n l here kind
  | internode i => exact wlp_bind wlp_failure

omit [NodeImage W] in
theorem wlp_internode {f : Internode → M W β}
    (h : ∀ n i, s.heap a = some n → n.kind = .internode i → Wlp (f i) s Q) :
    Wlp (M.internode a >>= f) s Q := by
  simp only [M.internode, bind_assoc]
  refine wlp_node fun n here => ?_
  cases kind : n.kind with
  | leaf l => exact wlp_bind wlp_failure
  | internode i =>
      simp only [pure_bind]
      exact h n i here kind

omit [NodeImage W] in
theorem wlp_fuel {f : Nat → M W β} (h : Wlp (f s.fresh) s Q) : Wlp (M.fuel >>= f) s Q := by
  simp only [M.fuel, bind_assoc, pure_bind]
  exact wlp_bind (wlp_get h)

end wlp

section relink
variable {s : St W} {a : Addr}

omit [NodeImage W] in
theorem relinked_modifyBody {f : LeafBody → LeafBody} (harmless : Harmless f) :
    Wlp (M.modifyBody a f) s fun _ t => Relinked s t := by
  simp only [M.modifyBody]
  refine wlp_leaf fun n l here leaf => ?_
  simp only [M.setKind]
  refine wlp_node fun m here' => wlp_modify ?_
  rw [here] at here'
  cases here'
  refine ⟨fun b => ?_, rfl, rfl, rfl, rfl, rfl, rfl, rfl, rfl, rfl⟩
  rw [kindAt_write]
  by_cases same : b = a
  · subst same
    rw [Function.update_self, kindAt_of_heap here, leaf]
    exact .leaf (harmless l.body)
  · rw [Function.update_of_ne same]
    exact .refl _

omit [NodeImage W] in
theorem same_getMaxLeaf (fuel : Nat) (a : Addr) : Wlp (M.getMaxLeaf fuel a) s fun _ t => t = s := by
  induction fuel generalizing a with
  | zero => exact wlp_failure
  | succ fuel ih =>
      simp only [M.getMaxLeaf]
      refine wlp_node fun n _ => ?_
      split
      · exact wlp_pure rfl
      · exact ih _

omit [NodeImage W] in
theorem same_getMinLeaf (fuel : Nat) (a : Addr) : Wlp (M.getMinLeaf fuel a) s fun _ t => t = s := by
  induction fuel generalizing a with
  | zero => exact wlp_failure
  | succ fuel ih =>
      simp only [M.getMinLeaf]
      refine wlp_node fun n _ => ?_
      split
      · exact wlp_pure rfl
      · exact ih _

omit [NodeImage W] in
theorem same_getPrevSafe (fuel : Nat) (a : Addr) :
    Wlp (M.getPrevSafe fuel a) s fun _ t => t = s := by
  induction fuel generalizing a with
  | zero => exact wlp_failure
  | succ fuel ih =>
      simp only [M.getPrevSafe]
      refine wlp_node fun n _ => ?_
      split
      · exact wlp_pure rfl
      · refine wlp_internode fun m i _ _ => ?_
        split
        · exact wlp_failure
        · split
          · exact wlp_fuel (same_getMaxLeaf _ _)
          · exact ih _

omit [NodeImage W] in
theorem same_getNextSafe (fuel : Nat) (a : Addr) :
    Wlp (M.getNextSafe fuel a) s fun _ t => t = s := by
  induction fuel generalizing a with
  | zero => exact wlp_failure
  | succ fuel ih =>
      simp only [M.getNextSafe]
      refine wlp_node fun n _ => ?_
      split
      · exact wlp_pure rfl
      · refine wlp_internode fun m i _ _ => ?_
        split
        · exact wlp_failure
        · split
          · exact wlp_fuel (same_getMinLeaf _ _)
          · exact ih _

omit [NodeImage W] in
theorem relinked_relink : Wlp (M.relink a) s fun _ t => Relinked s t := by
  simp only [M.relink]
  refine wlp_fuel ((same_getPrevSafe _ _).call ?_)
  rintro prev _ rfl
  refine wlp_fuel ((same_getNextSafe _ _).call ?_)
  rintro next t rfl
  refine (relinked_modifyBody fun _ => rfl).call fun _ u relinked => ?_
  have last {v : St W} (relinked : Relinked t v) :
      Wlp (if next ≠ 0 then M.modifyBody next (.setPrev a) else pure ()) v
        fun _ w => Relinked t w := by
    split
    · exact (relinked_modifyBody fun _ => rfl).mono fun _ w more => relinked.trans more
    · exact wlp_pure relinked
  split
  · exact (relinked_modifyBody fun _ => rfl).call fun _ v more => last (relinked.trans more)
  · exact last relinked

omit [NodeImage W] in
theorem wlp_load {β : Type} {Q : β → St W → Prop} {f : W → M W β} {offset : Nat}
    (h : ∀ w, s.log.load offset = some w → Wlp (f w) s Q) : Wlp (M.load offset >>= f) s Q := by
  apply wlp_bind
  simp only [M.load]
  apply wlp_bind
  apply wlp_get
  cases here : s.log.load offset with
  | none => exact wlp_failure
  | some w => exact wlp_pure (h w here)

theorem relinked_undoNextPrev (fuel flush : Nat) :
    Wlp (M.undoNextPrev fuel flush) s fun _ t => Relinked s t := by
  induction fuel generalizing s flush with
  | zero =>
      simp only [M.undoNextPrev]
      refine wlp_bind (wlp_get ?_)
      split
      · exact wlp_pure (.refl s)
      · exact wlp_failure
  | succ fuel ih =>
      simp only [M.undoNextPrev]
      refine wlp_bind (wlp_get ?_)
      split
      · exact wlp_pure (.refl s)
      · refine wlp_load fun addr _ => ?_
        split
        · exact wlp_failure
        · refine wlp_load fun size _ => wlp_node fun n _ => ?_
          split
          · exact relinked_relink.call fun _ t relinked => (ih _).mono fun _ u more =>
              relinked.trans more
          · exact ih _

/-- What `undo_next_prev` does with one node. -/
def M.treat (a : Addr) : M W Unit := do
  match (← M.node a).kind with
  | .leaf _ => M.relink a
  | .internode _ => pure ()

omit [NodeImage W] in
theorem relinked_treat : Wlp (M.treat a) s fun _ t => Relinked s t := by
  simp only [M.treat]
  refine wlp_node fun n _ => ?_
  split
  · exact relinked_relink
  · exact wlp_pure (.refl s)

theorem undoNextPrev_succ (fuel flush : Nat) :
    (M.undoNextPrev (fuel + 1) flush : M W Unit) = (do
      let log := (← get).log
      if flush = log.curr then return
      let addr ← M.load (flush + 8)
      match log.endsAt flush with
      | none => failure
      | some back =>
          let start := if back then 0 else flush
          let size ← M.load start
          M.treat (Word.val addr)
          M.undoNextPrev fuel ((start + Word.val size) % 2 ^ 64)) := by
  simp only [M.undoNextPrev, M.treat, bind_assoc]
  congr 1
  funext s
  split
  · rfl
  congr 1
  funext addr
  cases s.log.endsAt flush with
  | none => rfl
  | some back =>
      refine bind_congr fun size => bind_congr fun n => ?_
      cases n.kind with
      | leaf => rfl
      | internode => simp

/-- The loop over the heap is the loop of the log at the nodes of the heap. -/
theorem undoNextPrev_eq (fuel flush : Nat) (log : PExtNodeLogger W) (same : s.log = log) :
    M.undoNextPrev fuel flush s =
      (log.undoNextPrev (fun s a => (M.treat a s).map Prod.snd) fuel flush s).map ((), ·) := by
  induction fuel generalizing s flush with
  | zero =>
      by_cases done : flush = s.log.curr
      · simp [M.undoNextPrev, PExtNodeLogger.undoNextPrev, ← same, done, get, getThe,
          MonadStateOf.get, StateT.get, bind, StateT.bind, pure]
        rfl
      · simp [M.undoNextPrev, PExtNodeLogger.undoNextPrev, ← same, done, get, getThe,
          MonadStateOf.get, StateT.get, bind, StateT.bind, pure, failure, StateT.failure]
  | succ fuel ih =>
      by_cases done : flush = s.log.curr
      · simp [M.undoNextPrev, PExtNodeLogger.undoNextPrev, ← same, done, get, getThe,
          MonadStateOf.get, StateT.get, bind, StateT.bind, pure]
        rfl
      · have found (offset : Nat) : M.load offset s = (s.log.load offset).map (·, s) := by
          simp only [M.load, get, getThe, MonadStateOf.get, StateT.get, bind, StateT.bind, pure,
            Option.bind_some]
          cases s.log.load offset <;> rfl
        simp only [undoNextPrev_succ, PExtNodeLogger.undoNextPrev, ← same, done, get, getThe,
          MonadStateOf.get, StateT.get, bind, StateT.bind, pure, Option.bind_some, if_false]
        rw [found]
        cases s.log.load (flush + 8) with
        | none => rfl
        | some addr =>
            cases s.log.endsAt flush with
            | none => rfl
            | some back =>
                simp only [Option.map_some, Option.bind_some, StateT.bind, bind, found]
                cases s.log.load (if back = true then 0 else flush) with
                | none => rfl
                | some size =>
                    simp only [Option.map_some, Option.bind_some]
                    cases run : M.treat (Word.val addr) s with
                    | none => rfl
                    | some p =>
                        have kept := (relinked_treat p.1 p.2 run).log
                        rw [same]
                        exact ih _ (kept.trans same)

end relink

/-- The node at `a` after a restart: its image, if it was recorded, and else the node itself, up to
the links. -/
inductive Restored (s : St W) (a : Addr) (k : Option Kind) : Prop
  | kept (unrecorded : s.isRecorded a = false) (same : SameKind (kindAt s a) k)
  | image {r : Addr × Node} (member : r ∈ s.recorded) (here : r.1 = a)
      (same : SameKind (some r.2.kind) k)

/-- The state after a restart. -/
structure Restarted (s t : St W) : Prop where
  kinds : ∀ a, Restored s a (kindAt t a)
  fresh : t.fresh = s.fresh
  root : t.root = s.log.root
  log : t.log = { s.log with lastFlush := s.log.curr }
  globalepoch : t.globalepoch = s.globalepoch + 1
  failedepoch : t.failedepoch = s.globalepoch
  committed : ∀ a, t.committed a = (s.committed a).or (t.recovered a)
  clean : t.clean = t.committed
  saved : ∀ a, t.saved a = (s.saved a).or (t.recovered a)
  recorded : t.recorded = []
  observed : t.observed = s.observed
  hazards : t.hazards = s.hazards

theorem fixState_kind (n : Node) : SameKind (some n.kind) (some n.fixState.kind) := by
  cases kind : n.kind with
  | leaf l =>
      simp only [Node.fixState, kind]
      exact .leaf rfl
  | internode i =>
      simp only [Node.fixState, kind]
      exact .internode

theorem restarted_restart {s : St W} (ring : Ring s.log (entries s)) :
    Wlp M.restart s fun _ t => Restarted s t := by
  simp only [M.restart]
  refine wlp_bind (wlp_get ?_)
  rw [undo_eq ring]
  refine wlp_bind (wlp_set ?_)
  refine (relinked_undoNextPrev _ _).call fun _ t relinked => wlp_bind (wlp_modify (wlp_modify ?_))
  refine ⟨fun a => ?_, relinked.fresh, relinked.root, relinked.log, ?_, relinked.globalepoch,
    fun a => congrArg (Option.or · _) (congrFun relinked.committed a), rfl,
    fun a => congrArg (Option.or · _) (congrFun relinked.saved a), rfl, relinked.observed,
    relinked.hazards⟩
  · have kinds := relinked.kinds a
    have copied : kindAt { s with
        root := s.log.root
        log := { s.log with lastFlush := s.log.curr }
        heap := undoneHeap s } a = (undoneHeap s a).map (·.kind) := rfl
    rw [copied] at kinds
    rcases foldl_copyBack s.recorded s.heap a with ⟨out, same⟩ | ⟨r, member, here, same⟩
    · refine .kept out ?_
      rw [show undoneHeap s a = s.heap a from same] at kinds
      exact kinds
    · refine .image member here ?_
      rw [show undoneHeap s a = some r.2.fixState from same] at kinds
      exact (fixState_kind r.2).trans kinds
  · exact congrArg (· + 1) relinked.globalepoch

end Incll.Proof.Tree
