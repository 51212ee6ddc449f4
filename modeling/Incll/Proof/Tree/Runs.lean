import Incll.Proof.Leaf.Split
import Incll.Proof.Tree.Sound

/-! # Rules for the steps of an operation -/

namespace Incll.Proof.Tree
open Incll.Lib Incll.Model

variable {W : Type} [NodeImage W] {α β : Type}

/-- From a sound state, `m` reaches its results by changes of `Micro`, and they satisfy `Q`. -/
def Runs (m : M W α) (s : St W) (Q : α → St W → Prop) : Prop :=
  Sound s → Wlp m s fun a s' => Steps s s' ∧ Q a s'

theorem Runs.bind {m : M W α} {f : α → M W β} {s : St W} {P : α → St W → Prop}
    {Q : β → St W → Prop} (first : Runs m s P)
    (rest : ∀ a t, Sound t → Steps s t → P a t → Runs (f a) t Q) : Runs (m >>= f) s Q := by
  intro sound
  refine (first sound).call ?_
  rintro a t ⟨steps, post⟩
  have sound' := sound_steps sound steps
  refine (rest a t sound' steps post sound').mono ?_
  rintro b u ⟨steps', post'⟩
  exact ⟨steps.trans steps', post'⟩

theorem Runs.mono {m : M W α} {s : St W} {P Q : α → St W → Prop} (h : Runs m s P)
    (weaker : ∀ a t, Sound t → Steps s t → P a t → Q a t) : Runs m s Q := by
  intro sound
  refine (h sound).mono ?_
  rintro a t ⟨steps, post⟩
  exact ⟨steps, weaker a t (sound_steps sound steps) steps post⟩

theorem runs_sound {m : M W α} {s : St W} {Q : α → St W → Prop} (h : Sound s → Runs m s Q) :
    Runs m s Q := fun sound => h sound sound

theorem runs_pure {a : α} {s : St W} {Q : α → St W → Prop} (h : Q a s) :
    Runs (pure a : M W α) s Q :=
  fun _ => wlp_pure ⟨.refl, h⟩

theorem runs_failure {s : St W} {Q : α → St W → Prop} : Runs (failure : M W α) s Q :=
  fun _ => wlp_failure

theorem runs_get {f : St W → M W β} {s : St W} {Q : β → St W → Prop} (h : Runs (f s) s Q) :
    Runs (get >>= f) s Q :=
  fun sound => wlp_bind (wlp_get (h sound))

/-- A single change. -/
theorem runs_modify {f : St W → St W} {s : St W} {Q : PUnit → St W → Prop}
    (micro : Sound s → Micro s (f s)) (h : Q ⟨⟩ (f s)) : Runs (modify f : M W PUnit) s Q :=
  fun sound => wlp_modify ⟨.single (micro sound), h⟩

/-! Reading. -/

section read
variable {s : St W} {a : Addr} {Q : β → St W → Prop}

theorem runs_node {f : Node → M W β} (h : ∀ n, s.heap a = some n → Runs (f n) s Q) :
    Runs (M.node a >>= f) s Q := by
  intro sound
  apply wlp_bind
  simp only [M.node]
  apply wlp_bind
  apply wlp_get
  cases here : s.heap a with
  | none => exact wlp_failure
  | some n => exact wlp_pure (h n here sound)

theorem runs_version {f : Nodeversion → M W β}
    (h : ∀ n, s.heap a = some n → Runs (f n.version) s Q) : Runs (M.version a >>= f) s Q := by
  simp only [M.version, bind_assoc, pure_bind]
  exact runs_node h

theorem runs_leaf {f : Leaf → M W β}
    (h : ∀ n l, s.heap a = some n → n.kind = .leaf l → Runs (f l) s Q) :
    Runs (M.leaf a >>= f) s Q := by
  simp only [M.leaf, bind_assoc]
  refine runs_node fun n here => ?_
  cases kind : n.kind with
  | leaf l =>
      simp only [pure_bind]
      exact h n l here kind
  | internode i => exact fun _ => wlp_bind wlp_failure

theorem runs_internode {f : Internode → M W β}
    (h : ∀ n i, s.heap a = some n → n.kind = .internode i → Runs (f i) s Q) :
    Runs (M.internode a >>= f) s Q := by
  simp only [M.internode, bind_assoc]
  refine runs_node fun n here => ?_
  cases kind : n.kind with
  | leaf l => exact fun _ => wlp_bind wlp_failure
  | internode i =>
      simp only [pure_bind]
      exact h n i here kind

theorem runs_globalepoch {f : Nat → M W β} (h : Runs (f s.globalepoch) s Q) :
    Runs (M.globalepoch >>= f) s Q := by
  simp only [M.globalepoch, bind_assoc, pure_bind]
  exact runs_get h

theorem runs_fuel {f : Nat → M W β} (h : Runs (f s.fresh) s Q) : Runs (M.fuel >>= f) s Q := by
  simp only [M.fuel, bind_assoc, pure_bind]
  exact runs_get h

theorem runs_stable {f : Nodeversion → M W β}
    (h : ∀ n, s.heap a = some n → n.version.dirty = false → Runs (f n.version) s Q) :
    Runs (M.stable a >>= f) s Q := by
  simp only [M.stable, bind_assoc]
  refine runs_version fun n here => ?_
  cases dirty : n.version.dirty with
  | false =>
      simp only [Bool.false_eq_true, if_false, pure_bind]
      exact h n here dirty
  | true => exact fun _ => wlp_bind wlp_failure

end read

/-! Versions. -/

section version
variable {s : St W} {a : Addr}

theorem runs_setVersion (v : Nodeversion) :
    Runs (M.setVersion a v) s fun _ t =>
      ∃ n, s.heap a = some n ∧ t = s.setNode a { n with version := v } := by
  simp only [M.setVersion]
  exact runs_node fun n here => runs_modify (fun _ => .version v here) ⟨n, here, rfl⟩

theorem runs_setVersion_kinds (v : Nodeversion) :
    Runs (M.setVersion a v) s fun _ t => kindAt t = kindAt s := by
  refine (runs_setVersion v).mono ?_
  rintro _ t _ _ ⟨n, here, rfl⟩
  exact kindAt_version v here

theorem runs_lock : Runs (M.lock a) s fun _ t =>
    ∃ n, s.heap a = some n ∧
      t = s.setNode a { n with version := { n.version with locked := true } } := by
  simp only [M.lock]
  refine runs_version fun n here => ?_
  split
  · exact runs_failure
  · refine (runs_setVersion _).mono ?_
    rintro _ t _ _ ⟨n', here', rfl⟩
    rw [here] at here'
    cases here'
    exact ⟨n, here, rfl⟩

theorem runs_lock_kinds : Runs (M.lock a) s fun _ t => kindAt t = kindAt s := by
  refine runs_lock.mono ?_
  rintro _ t _ _ ⟨n, here, rfl⟩
  exact kindAt_version _ here

theorem runs_unlock : Runs (M.unlock a) s fun _ t => kindAt t = kindAt s := by
  simp only [M.unlock]
  exact runs_version fun n here => runs_setVersion_kinds _

theorem runs_markInsert : Runs (M.markInsert a) s fun _ t => kindAt t = kindAt s := by
  simp only [M.markInsert]
  exact runs_version fun n here => runs_setVersion_kinds _

theorem runs_markSplit : Runs (M.markSplit a) s fun _ t => kindAt t = kindAt s := by
  simp only [M.markSplit]
  exact runs_version fun n here => runs_setVersion_kinds _

theorem runs_markDeleted : Runs (M.markDeleted a) s fun _ t => kindAt t = kindAt s := by
  simp only [M.markDeleted]
  exact runs_version fun n here => runs_setVersion_kinds _

theorem runs_hazard (h : Hazard) (cond : Bool) : Runs (M.hazard h cond) s fun _ t =>
    kindAt t = kindAt s ∧ (cond = true → h ∈ t.hazards) := by
  refine runs_modify (fun _ => .note h cond) ⟨rfl, ?_⟩
  rintro rfl
  simp [St.note]

end version

/-! Writing. -/

section write
variable {s : St W} {a : Addr}

/-- The kinds after a store to `a`. -/
def Stored (s t : St W) (a : Addr) (k : Kind) : Prop :=
  kindAt t = Function.update (kindAt s) a (some k)

theorem runs_setKind_eq {k : Kind} {f : Kind → Kind}
    (step : ∀ k₀, kindAt s a = some k₀ → KindStep s a k₀ k f) :
    Runs (M.setKind a k f) s fun _ t => ∃ n, s.heap a = some n ∧ t = s.write a n k f := by
  simp only [M.setKind]
  refine runs_node fun n here => runs_modify (fun _ => ?_) ⟨n, here, rfl⟩
  exact .write here (step _ (kindAt_of_heap here))

theorem runs_setKind {k : Kind} {f : Kind → Kind}
    (step : ∀ k₀, kindAt s a = some k₀ → KindStep s a k₀ k f) :
    Runs (M.setKind a k f) s fun _ t => Stored s t a k := by
  refine (runs_setKind_eq step).mono ?_
  rintro _ t _ _ ⟨n, _, rfl⟩
  simp [Stored]

theorem runs_modifyBody {f : LeafBody → LeafBody}
    (step : ∀ l, kindAt s a = some (.leaf l) →
      KindStep s a (.leaf l) (.leaf { l with body := f l.body }) (.mapBody f)) :
    Runs (M.modifyBody a f) s fun _ t =>
      ∃ l, kindAt s a = some (.leaf l) ∧ Stored s t a (.leaf { l with body := f l.body }) := by
  simp only [M.modifyBody]
  refine runs_leaf fun n l here leaf => ?_
  have here' : kindAt s a = some (.leaf l) := leaf ▸ kindAt_of_heap here
  refine (runs_setKind fun k₀ at_a => ?_).mono fun _ t _ _ stored => ⟨l, here', stored⟩
  rw [here'] at at_a
  cases at_a
  exact step l here'

theorem runs_modifyInternode {f : Internode → Internode} (logged : s.isLogged a = true)
    (same : ∀ i, kindAt s a = some (.internode i) → (f i).loggedepoch = i.loggedepoch) :
    Runs (M.modifyInternode a f) s fun _ t =>
      ∃ i, kindAt s a = some (.internode i) ∧ Stored s t a (.internode (f i)) := by
  simp only [M.modifyInternode]
  refine runs_internode fun n i here internode => ?_
  have here' : kindAt s a = some (.internode i) := internode ▸ kindAt_of_heap here
  refine (runs_setKind fun k₀ at_a => ?_).mono fun _ t _ _ stored => ⟨i, here', stored⟩
  rw [here'] at at_a
  cases at_a
  exact .internode logged (same i here')

theorem runs_setParent {p : Addr}
    (logged : s.isLogged a = true ∨ .collapse ∈ s.hazards ∨ .lockedChild ∈ s.hazards) :
    Runs (M.setParent a p) s fun _ t =>
      ∃ k, kindAt s a = some k ∧ Stored s t a (k.setParent p) := by
  simp only [M.setParent]
  refine runs_node fun n here => ?_
  have here' := kindAt_of_heap here
  refine (runs_setKind fun k₀ at_a => ?_).mono fun _ t _ _ stored => ⟨n.kind, here', stored⟩
  rw [here'] at at_a
  cases at_a
  exact .parent p logged

theorem runs_alloc {n : Node} (new : NewNode s n.kind) :
    Runs (M.alloc n) s fun r t => r = s.fresh ∧ t.isLogged r = true ∧ Stored s t r n.kind := by
  intro sound
  simp only [M.alloc]
  apply wlp_bind
  apply wlp_get
  split
  · next space =>
      have micro : Micro s (s.alloc n) := .alloc space new
      apply wlp_bind
      apply wlp_set
      apply wlp_pure
      exact ⟨.single micro, rfl, micro.grows.isLogged sound.new_logged, by simp [Stored]⟩
  · exact wlp_failure

/-- A record and the store after it. -/
theorem runs_record {n : Node} {image k : Kind} {f : Kind → Kind} (here : s.heap a = some n)
    (step : LogStep s n.kind image k f) :
    Runs (do M.record a { n with kind := image }; M.setKind a k f) s fun _ t =>
      t.isLogged a = true ∧ Stored s t a k := by
  intro sound
  apply wlp_bind
  simp only [M.record]
  apply wlp_bind
  apply wlp_get
  split
  · next log record =>
      apply wlp_set
      simp only [M.setKind, M.node]
      apply wlp_bind
      apply wlp_bind
      apply wlp_get
      have same : (((s.noteRecord (entryOf a { n with kind := image })).append log a
          { n with kind := image }).heap a) = some n := here
      simp only [entryOf] at same
      rw [same]
      apply wlp_pure
      apply wlp_modify
      have micro := Micro.log here step record
      refine ⟨.single micro, ?_, ?_⟩
      · have recorded : ((appended s log a { n with kind := image }).write a n k f).isRecorded a =
            true := by simp
        have logged : ((appended s log a { n with kind := image }).write a n k f).isLogged a =
            true := by
          simp only [St.isLogged, recorded, Bool.or_true]
        exact logged
      · have stored : Stored s ((appended s log a { n with kind := image }).write a n k f) a k := by
          simp [Stored]
        exact stored
  · exact wlp_failure

end write

end Incll.Proof.Tree
