import Kompozer.Prefs.Observers

/-! Notifications within notifications. The list of callbacks is ordered by identity, with
the newest in front, and while a notification is in progress nothing leaves it: so the
nodes a notification has behind it are those above its cursor. -/

namespace Kompozer.Prefs

universe u
variable {Func Data : Type u}

/-! ### The list -/

namespace Registry
variable {r : Registry Func Data}

/-- The list from one of its nodes on. -/
theorem nodesFrom_eq {id : ℕ} (h : id ∈ r.gCallbacks.map CallbackNode.id) :
    ∃ A node B, r.gCallbacks = A ++ node :: B ∧ node.id = id ∧ r.nodesFrom id = node :: B := by
  rw [nodesFrom]
  generalize r.gCallbacks = l at h ⊢
  induction l with
  | nil => simp at h
  | cons node nodes ih =>
    by_cases hid : node.id = id
    · exact ⟨[], node, nodes, rfl, hid, by simp [hid]⟩
    · obtain ⟨A, node', B, hnodes, hid', hdrop⟩ := ih (by simpa [Ne.symm hid] using h)
      refine ⟨node :: A, node', B, by rw [hnodes, List.cons_append], hid', ?_⟩
      rw [List.dropWhile_cons_of_pos (by simpa using hid), hdrop]

theorem nodesFrom_cons {id : ℕ} {node : CallbackNode Func Data}
    {nodes : List (CallbackNode Func Data)} (h : r.nodesFrom id = node :: nodes) :
    node.id = id ∧ node ∈ r.gCallbacks := by
  rw [nodesFrom] at h
  have hhead := List.head?_dropWhile_not
    (fun node : CallbackNode Func Data => decide (node.id ≠ id)) r.gCallbacks
  rw [h] at hhead
  refine ⟨by simpa using hhead, (List.dropWhile_suffix fun node => decide (node.id ≠ id)).subset ?_⟩
  rw [h]
  exact List.mem_cons_self

variable [DecidableEq Func] [DecidableEq Data]

/-- Whether a node is one that is to be unregistered. -/
def Matches (pref_node : CString) (callback : Func) (instance_data : Data)
    (node : CallbackNode Func Data) : Prop :=
  node.domain = pref_node ∧ node.func = some callback ∧ node.data = instance_data

instance (pref_node : CString) (callback : Func) (instance_data : Data) :
    DecidablePred (Matches pref_node callback instance_data) :=
  fun _ => inferInstanceAs (Decidable (_ ∧ _ ∧ _))

/-- A node that was unregistered while the list was enumerated. -/
def mark (pref_node : CString) (callback : Func) (instance_data : Data)
    (node : CallbackNode Func Data) : CallbackNode Func Data :=
  if Matches pref_node callback instance_data node then { node with func := none } else node

theorem unregisterLoop_inProgress (d : CString) (c : Func) (x : Data)
    (l : List (CallbackNode Func Data)) :
    unregisterLoop true d c x l = (l.map (mark d c x), decide (∃ node ∈ l, Matches d c x node)) := by
  induction l with
  | nil => simp [unregisterLoop]
  | cons node l ih =>
    rw [unregisterLoop, ih]
    by_cases h : Matches d c x node
    · have h' := h
      rw [Matches] at h'
      simp [h', mark, h]
    · have h' := h
      rw [Matches] at h'
      simp [h', mark, h]

theorem unregisterLoop_idle (d : CString) (c : Func) (x : Data)
    (l : List (CallbackNode Func Data)) :
    (unregisterLoop false d c x l).1 = l.filter fun node => ¬ Matches d c x node := by
  induction l with
  | nil => simp [unregisterLoop]
  | cons node l ih =>
    rw [unregisterLoop]
    by_cases h : Matches d c x node
    · have h' := h
      rw [Matches] at h'
      simp [h', ih, h]
    · have h' := h
      rw [Matches] at h'
      simp [h', ih, h]

@[simp] theorem id_mark (d : CString) (c : Func) (x : Data) (node : CallbackNode Func Data) :
    (mark d c x node).id = node.id := by
  rw [mark]
  split_ifs <;> rfl

end Registry

/-! ### One notification -/

/-- The newest node is in front. -/
def Ordered (l : List (CallbackNode Func Data)) : Prop := l.Pairwise fun a b => b.id < a.id

theorem Ordered.cut {A B : List (CallbackNode Func Data)} {node : CallbackNode Func Data}
    (h : Ordered (A ++ node :: B)) :
    (∀ a ∈ A, node.id < a.id) ∧ ∀ b ∈ B, b.id < node.id := by
  obtain ⟨-, hB, hAB⟩ := List.pairwise_append.mp h
  exact ⟨fun a ha => hAB a ha node List.mem_cons_self, (List.pairwise_cons.mp hB).1⟩

/-- Identities are unique. -/
theorem Ordered.eq_of_id {l : List (CallbackNode Func Data)} (h : Ordered l)
    {a b : CallbackNode Func Data} (ha : a ∈ l) (hb : b ∈ l) (hid : a.id = b.id) : a = b := by
  have hnodup : (l.map CallbackNode.id).Nodup :=
    List.pairwise_map.mpr (h.imp fun hlt heq => absurd (heq ▸ hlt) (Nat.lt_irrefl _))
  exact List.inj_on_of_nodup_map hnodup ha hb hid

namespace Notification

/-- The loop is past a node, or has called it just now. -/
def Passed (f : Notification) (id : ℕ) : Prop :=
  ∀ cursor, f.node = some cursor → cursor < id ∨ f.running = true ∧ id = cursor

/-- The cursor is on a node of the list, and of the nodes from the beginning the loop has
called once those it has passed and that are alive and match. -/
structure Inv (l : List (CallbackNode Func Data)) (f : Notification) : Prop where
  cursor : ∀ id, f.node = some id → id ∈ l.map CallbackNode.id ∧ id < f.first
  nodup : f.called.Nodup
  passed : ∀ id ∈ f.called, f.Passed id
  all : ∀ node ∈ l, node.func.isSome = true → node.domain <+: f.changed_pref →
    node.id < f.first → f.Passed node.id → node.id ∈ f.called

/-- Marking nodes and putting new ones in front does not disturb a notification. -/
theorem Inv.mono {l l' : List (CallbackNode Func Data)} {f : Notification} (h : f.Inv l)
    (hids : ∀ id ∈ l.map CallbackNode.id, id ∈ l'.map CallbackNode.id)
    (halive : ∀ node ∈ l', node.func.isSome = true → node.id < f.first → node ∈ l) :
    f.Inv l' where
  cursor id hid := (h.cursor id hid).imp_left (hids id)
  nodup := h.nodup
  passed := h.passed
  all node hmem hfunc hmatch hfirst hpassed :=
    h.all node (halive node hmem hfunc hfirst) hfunc hmatch hfirst hpassed

/-- The loop calls the node under its cursor. -/
theorem Inv.call {l : List (CallbackNode Func Data)} {f : Notification} (h : f.Inv l) {id : ℕ}
    (hid : f.node = some id) (hrunning : f.running = false) :
    { f with running := true, called := id :: f.called }.Inv l where
  cursor := h.cursor
  nodup := by
    refine List.nodup_cons.mpr ⟨fun hmem => ?_, h.nodup⟩
    rcases h.passed id hmem id hid with hlt | ⟨hrun, -⟩
    · exact absurd hlt (Nat.lt_irrefl id)
    · rw [hrunning] at hrun
      exact absurd hrun (by simp)
  passed n hn cursor hcursor := by
    rcases List.mem_cons.mp hn with rfl | hn
    · exact .inr ⟨rfl, Option.some.inj (hid.symm.trans hcursor)⟩
    · exact (h.passed n hn cursor hcursor).imp_right fun ⟨_, heq⟩ => ⟨rfl, heq⟩
  all node hnode hfunc hmatch hfirst hpassed := by
    rcases hpassed id hid with hlt | ⟨-, heq⟩
    · refine List.mem_cons_of_mem id (h.all node hnode hfunc hmatch hfirst fun cursor hcursor => ?_)
      rw [← Option.some.inj (hid.symm.trans hcursor)]
      exact .inl hlt
    · exact heq ▸ List.mem_cons_self

/-- The cursor goes to the next node, with the one before it done. -/
theorem Inv.next {A B : List (CallbackNode Func Data)} {node : CallbackNode Func Data}
    {f : Notification} (h : f.Inv (A ++ node :: B)) (hordered : Ordered (A ++ node :: B))
    (hnode : f.node = some node.id) (hdone : node.func.isSome = true →
      node.domain <+: f.changed_pref → node.id ∈ f.called) (rv : NsResult) :
    { f with rv := rv, running := false, node := B.head?.map CallbackNode.id }.Inv
      (A ++ node :: B) where
  cursor id hid := by
    obtain ⟨b, hb, rfl⟩ := Option.map_eq_some_iff.mp hid
    have hmem := List.mem_of_mem_head? hb
    have hlt := hordered.cut.2 b hmem
    exact ⟨List.mem_map_of_mem (by simp [hmem]), Nat.lt_trans hlt (h.cursor _ hnode).2⟩
  nodup := h.nodup
  passed id hid cursor hcursor := by
    obtain ⟨b, hb, rfl⟩ := Option.map_eq_some_iff.mp hcursor
    have hlt := hordered.cut.2 b (List.mem_of_mem_head? hb)
    rcases h.passed id hid _ hnode with hpassed | ⟨-, rfl⟩
    · exact .inl (Nat.lt_trans hlt hpassed)
    · exact .inl hlt
  all n hn hfunc hmatch hfirst hpassed := by
    rcases List.mem_append.mp hn with hA | hn
    · refine h.all n hn hfunc hmatch hfirst fun cursor hcursor => ?_
      rw [← Option.some.inj (hnode.symm.trans hcursor)]
      exact .inl (hordered.cut.1 n hA)
    rcases List.mem_cons.mp hn with rfl | hB
    · exact hdone hfunc hmatch
    · -- the nodes behind the new cursor were not passed
      obtain ⟨b, B, rfl⟩ := List.exists_cons_of_ne_nil (List.ne_nil_of_mem hB)
      have hle : n.id ≤ b.id := by
        rcases List.mem_cons.mp hB with rfl | hB
        · exact Nat.le_refl _
        · have hsub := (List.pairwise_append.mp hordered).2.1
          exact Nat.le_of_lt ((List.pairwise_cons.mp (List.pairwise_cons.mp hsub).2).1 n hB)
      rcases hpassed b.id rfl with hlt | ⟨hrun, -⟩
      · exact absurd hlt (Nat.not_lt_of_le hle)
      · exact absurd hrun (by simp)

end Notification

namespace Machine

/-- What holds in every state. -/
structure Inv (m : Machine Func Data) : Prop where
  ordered : Ordered m.registry.gCallbacks
  bound : ∀ node ∈ m.registry.gCallbacks, node.id < m.registry.fresh
  inProgress : m.registry.gCallbacksInProgress = !m.stack.isEmpty
  dead : ∀ node ∈ m.registry.gCallbacks, node.func = none →
    m.stack ≠ [] ∧ m.registry.gShouldCleanupDeadNodes = true
  frames : ∀ f ∈ m.stack, f.Inv m.registry.gCallbacks ∧ f.first ≤ m.registry.fresh
  reentered : ∀ f stack, f :: stack <:+ m.stack → f.reentered = !stack.isEmpty

theorem Inv.init : (init : Machine Func Data).Inv :=
  ⟨List.Pairwise.nil, by simp [Machine.init], rfl, by simp [Machine.init], by simp [Machine.init],
    by simp [Machine.init]⟩

namespace Inv
variable {m : Machine Func Data} (h : m.Inv)
include h

/-- A notification begins. -/
theorem enter (changed_pref : CString) : (m.enter changed_pref).Inv := by
  refine ⟨h.ordered, h.bound, rfl, fun node hnode hdead => ⟨by simp [Machine.enter], ?_⟩, ?_, ?_⟩
  · exact (h.dead node hnode hdead).2
  · intro f hf
    rcases List.mem_cons.mp hf with rfl | hf
    · refine ⟨⟨fun id hid => ?_, List.nodup_nil, by simp, fun node hnode _ _ _ hpassed => ?_⟩,
        Nat.le_refl _⟩
      · obtain ⟨node, hnode, rfl⟩ := Option.map_eq_some_iff.mp hid
        have hmem := List.mem_of_mem_head? hnode
        exact ⟨List.mem_map_of_mem hmem, h.bound node hmem⟩
      · -- no node is in front of the first
        change node ∈ m.registry.gCallbacks at hnode
        obtain ⟨a, l, hl⟩ := List.exists_cons_of_ne_nil (List.ne_nil_of_mem hnode)
        have hcursor : m.registry.gCallbacks.head?.map CallbackNode.id = some a.id := by rw [hl]; rfl
        have hle : node.id ≤ a.id := by
          have hordered := h.ordered
          rw [hl] at hordered hnode
          rcases List.mem_cons.mp hnode with rfl | hmem
          · exact Nat.le_refl _
          · exact Nat.le_of_lt ((List.pairwise_cons.mp hordered).1 node hmem)
        rcases hpassed a.id hcursor with hlt | ⟨hrun, -⟩
        · exact absurd hlt (Nat.not_lt_of_le hle)
        · exact absurd hrun (by simp)
    · exact h.frames f hf
  · intro f stack hsuffix
    rcases List.suffix_cons_iff.mp hsuffix with heq | hsuffix
    · obtain ⟨rfl, rfl⟩ := List.cons.inj heq
      exact h.inProgress
    · exact h.reentered f stack hsuffix

/-- Unknown code registers a callback. -/
theorem register (d : CString) (c : Func) (x : Data) :
    { m with registry := m.registry.PREF_RegisterCallback d c x }.Inv := by
  refine ⟨List.pairwise_cons.mpr ⟨h.bound, h.ordered⟩, fun node hnode => ?_, h.inProgress,
    fun node hnode hdead => ?_, fun f hf => ?_, h.reentered⟩
  · rcases List.mem_cons.mp hnode with rfl | hnode
    · exact Nat.lt_succ_self _
    · exact Nat.lt_succ_of_lt (h.bound node hnode)
  · rcases List.mem_cons.mp hnode with rfl | hnode
    · cases hdead
    · exact h.dead node hnode hdead
  · obtain ⟨hinv, hfirst⟩ := h.frames f hf
    refine ⟨hinv.mono (fun id hid => List.mem_cons_of_mem _ hid) fun node hnode _ hlt => ?_,
      Nat.le_succ_of_le hfirst⟩
    rcases List.mem_cons.mp hnode with rfl | hnode
    · exact absurd hlt (Nat.not_lt_of_le hfirst)
    · exact hnode

/-- Unknown code unregisters a callback. -/
theorem unregister [DecidableEq Func] [DecidableEq Data] (d : CString) (c : Func) (x : Data) :
    { m with registry := (m.registry.PREF_UnregisterCallback d c x).2 }.Inv := by
  cases hprogress : m.registry.gCallbacksInProgress with
  | false =>
    have hempty : m.stack = [] := by
      simpa [hprogress] using h.inProgress
    have hlist : (m.registry.PREF_UnregisterCallback d c x).2.gCallbacks =
        m.registry.gCallbacks.filter fun node => ¬ Registry.Matches d c x node := by
      rw [Registry.PREF_UnregisterCallback, hprogress]
      exact Registry.unregisterLoop_idle d c x _
    refine ⟨?_, fun node hnode => ?_, h.inProgress, fun node hnode hdead => ?_,
      fun f hf => ?_, h.reentered⟩
    · rw [hlist]
      exact h.ordered.filter _
    · rw [hlist] at hnode
      exact h.bound node (List.mem_of_mem_filter hnode)
    · rw [hlist] at hnode
      exact absurd hempty (h.dead node (List.mem_of_mem_filter hnode) hdead).1
    · change f ∈ m.stack at hf
      rw [hempty] at hf
      exact absurd hf (List.not_mem_nil)
  | true =>
    have hloop : Registry.unregisterLoop m.registry.gCallbacksInProgress d c x
        m.registry.gCallbacks = (m.registry.gCallbacks.map (Registry.mark d c x),
          decide (∃ node ∈ m.registry.gCallbacks, Registry.Matches d c x node)) := by
      rw [hprogress]
      exact Registry.unregisterLoop_inProgress d c x _
    have hlist : (m.registry.PREF_UnregisterCallback d c x).2.gCallbacks =
        m.registry.gCallbacks.map (Registry.mark d c x) := congrArg Prod.fst hloop
    have hstack : m.stack ≠ [] := by
      intro hempty
      have hfalse := h.inProgress
      rw [hprogress, hempty] at hfalse
      exact absurd hfalse (by simp)
    refine ⟨?_, fun node hnode => ?_, h.inProgress, fun node hnode hdead => ⟨hstack, ?_⟩,
      fun f hf => ?_, h.reentered⟩
    · rw [hlist]
      refine List.pairwise_map.mpr (h.ordered.imp fun hlt => ?_)
      simpa using hlt
    · rw [hlist] at hnode
      obtain ⟨n, hn, rfl⟩ := List.mem_map.mp hnode
      rw [Registry.id_mark]
      exact h.bound n hn
    · rw [hlist] at hnode
      obtain ⟨n, hn, rfl⟩ := List.mem_map.mp hnode
      show (m.registry.gShouldCleanupDeadNodes || (m.registry.gCallbacksInProgress &&
        (Registry.unregisterLoop m.registry.gCallbacksInProgress d c x
          m.registry.gCallbacks).2)) = true
      rw [hloop, hprogress]
      by_cases hm : Registry.Matches d c x n
      · simp only [Bool.true_and, Bool.or_eq_true, decide_eq_true_iff]
        exact .inr ⟨n, hn, hm⟩
      · rw [Registry.mark, if_neg hm] at hdead
        rw [(h.dead n hn hdead).2, Bool.true_or]
    · obtain ⟨hinv, hfirst⟩ := h.frames f hf
      refine ⟨?_, hfirst⟩
      show f.Inv (m.registry.PREF_UnregisterCallback d c x).2.gCallbacks
      rw [hlist]
      refine hinv.mono (fun id hid => ?_) fun node hnode hfunc _ => ?_
      · rw [List.map_map]
        have hcomp : CallbackNode.id ∘ Registry.mark d c x = CallbackNode.id := by
          funext n
          exact Registry.id_mark d c x n
        rwa [hcomp]
      · obtain ⟨n, hn, rfl⟩ := List.mem_map.mp hnode
        rw [Registry.mark] at hfunc ⊢
        split_ifs at hfunc ⊢ with hm
        · exact absurd hfunc (by simp)
        · exact hn

/-- A notification comes to its end. -/
theorem leave {f : Notification} {stack : List Notification} (hstack : m.stack = f :: stack) :
    (m.leave f stack).Inv := by
  have hreentered : f.reentered = !stack.isEmpty := h.reentered f stack (by rw [hstack])
  have hsuffix : stack <:+ m.stack := by
    rw [hstack]
    exact List.suffix_cons f stack
  cases stack with
  | nil =>
    rw [Machine.leave, hreentered]
    cases hclean : m.registry.gShouldCleanupDeadNodes with
    | true =>
      refine ⟨h.ordered.filter _, fun node hnode => h.bound node (List.mem_of_mem_filter hnode), rfl,
        fun node hnode hdead => ?_, by simp, by simp⟩
      have hsome := (List.mem_filter.mp hnode).2
      rw [hdead] at hsome
      exact absurd hsome (by simp)
    | false =>
      refine ⟨h.ordered, h.bound, rfl, fun node hnode hdead => ?_, by simp, by simp⟩
      have hflag := (h.dead node hnode hdead).2
      rw [hclean] at hflag
      exact absurd hflag (by simp)
  | cons g stack =>
    have hleave : m.leave f (g :: stack) = { m with
        registry := { m.registry with gCallbacksInProgress := true }
        stack := g :: stack } := by
      simp [Machine.leave, hreentered]
    rw [hleave]
    exact ⟨h.ordered, h.bound, rfl, fun node hnode hdead => ⟨by simp, (h.dead node hnode hdead).2⟩,
      fun k hk => h.frames k (hsuffix.subset hk), fun k l hl => h.reentered k l (hl.trans hsuffix)⟩

/-- Only the innermost notification changes. -/
private theorem replaceTop {f f' : Notification} {stack : List Notification} {calls : List ℕ}
    (hstack : m.stack = f :: stack) (hinv : f'.Inv m.registry.gCallbacks)
    (hfirst : f'.first = f.first) (hreentered : f'.reentered = f.reentered) :
    { m with stack := f' :: stack, calls := calls }.Inv := by
  have hsuffix : stack <:+ m.stack := by
    rw [hstack]
    exact List.suffix_cons f stack
  refine ⟨h.ordered, h.bound, ?_, fun node hnode hdead => ⟨by simp, (h.dead node hnode hdead).2⟩,
    fun g hg => ?_, fun g l hl => ?_⟩
  · rw [h.inProgress, hstack]
    rfl
  · rcases List.mem_cons.mp hg with rfl | hg
    · refine ⟨hinv, ?_⟩
      rw [hfirst]
      exact (h.frames f (by simp [hstack])).2
    · exact h.frames g (hsuffix.subset hg)
  · rcases List.suffix_cons_iff.mp hl with heq | hl
    · obtain ⟨rfl, rfl⟩ := List.cons.inj heq
      rw [hreentered]
      exact h.reentered f l (by rw [hstack])
    · exact h.reentered g l (hl.trans hsuffix)

/-- The loop goes on. -/
theorem visit {f : Notification} {stack : List Notification} {m' : Machine Func Data}
    (hstack : m.stack = f :: stack) (hrunning : f.running = false)
    (hstep : m.visit f stack = some m') : m'.Inv := by
  obtain ⟨hf, -⟩ := h.frames f (by simp [hstack])
  rw [Machine.visit] at hstep
  cases hnode : f.node with
  | none =>
    rw [hnode] at hstep
    rw [← Option.some.inj hstep]
    exact h.leave hstack
  | some id =>
    obtain ⟨A, node, B, hlist, rfl, hfrom⟩ := Registry.nodesFrom_eq (hf.cursor id hnode).1
    rw [hnode] at hstep
    dsimp only at hstep
    rw [hfrom] at hstep
    dsimp only at hstep
    split_ifs at hstep with hcall
    · rw [← Option.some.inj hstep]
      have hinv := hf.call hnode hrunning
      rw [hnode] at hinv
      exact h.replaceTop hstack hinv rfl rfl
    · rw [← Option.some.inj hstep]
      refine h.replaceTop hstack ?_ rfl rfl
      have hordered := h.ordered
      rw [hlist] at hf hordered ⊢
      have hnext := hf.next hordered hnode (fun hfunc hmatch => absurd (by
        rw [Bool.and_eq_true]
        exact ⟨hfunc, List.isPrefixOf_iff_prefix.mpr hmatch⟩) hcall) f.rv
      rwa [← hrunning] at hnext

/-- A callback returns. -/
theorem resume {f : Notification} {stack : List Notification} {m' : Machine Func Data}
    (hstack : m.stack = f :: stack) (hrunning : f.running = true) {rv : NsResult}
    (hstep : m.resume rv f stack = some m') : m'.Inv := by
  obtain ⟨hf, -⟩ := h.frames f (by simp [hstack])
  rw [Machine.resume] at hstep
  cases hnode : f.node with
  | none => simp [hnode] at hstep
  | some id =>
    obtain ⟨A, node, B, hlist, rfl, hfrom⟩ := Registry.nodesFrom_eq (hf.cursor id hnode).1
    rw [hnode, Option.map_some, hfrom] at hstep
    rw [← Option.some.inj hstep]
    refine h.replaceTop hstack ?_ rfl rfl
    have hordered := h.ordered
    rw [hlist] at hf hordered ⊢
    -- the node that was running was called
    refine hf.next hordered hnode (fun hfunc hmatch => ?_) _
    refine hf.all node (by simp) hfunc hmatch (hf.cursor _ hnode).2 fun cursor hcursor => .inr ?_
    exact ⟨hrunning, Option.some.inj (hnode.symm.trans hcursor)⟩

variable [DecidableEq Func] [DecidableEq Data]

/-- Every step keeps the invariant. -/
theorem step {e : Event Func Data} {m' : Machine Func Data} (hstep : m.step e = some m') :
    m'.Inv := by
  cases e with
  | setPref changed_pref =>
    rw [Machine.step] at hstep
    split_ifs at hstep
    exact Option.some.inj hstep ▸ h.enter changed_pref
  | register d c x =>
    rw [Machine.step] at hstep
    split_ifs at hstep
    exact Option.some.inj hstep ▸ h.register d c x
  | unregister d c x =>
    rw [Machine.step] at hstep
    split_ifs at hstep
    exact Option.some.inj hstep ▸ h.unregister d c x
  | ret rv =>
    rw [Machine.step] at hstep
    cases hstack : m.stack with
    | nil => simp [hstack] at hstep
    | cons f stack =>
      rw [hstack] at hstep
      dsimp only at hstep
      split_ifs at hstep with hrunning
      exact h.resume hstack hrunning hstep
  | advance =>
    rw [Machine.step] at hstep
    cases hstack : m.stack with
    | nil => simp [hstack] at hstep
    | cons f stack =>
      rw [hstack] at hstep
      dsimp only at hstep
      split_ifs at hstep with hrunning
      exact h.visit hstack (by simpa using hrunning) hstep

/-- And so does every run. -/
theorem run {es : List (Event Func Data)} {m' : Machine Func Data}
    (hrun : Machine.run es m = some m') : m'.Inv := by
  induction es generalizing m with
  | nil => exact Option.some.inj hrun ▸ h
  | cons e es ih =>
    rw [Machine.run] at hrun
    obtain ⟨m₁, hstep, hrun⟩ := Option.bind_eq_some_iff.mp hrun
    exact ih (h.step hstep) hrun

end Inv

/-! ### What a step does to the list -/

section Step
variable {m m' : Machine Func Data}

theorem gCallbacks_leave (f : Notification) (stack : List Notification) :
    (m.leave f stack).registry.gCallbacks = m.registry.gCallbacks ∨
      f.reentered = false ∧ (m.leave f stack).registry.gCallbacks =
        m.registry.gCallbacks.filter fun node => node.func.isSome := by
  cases hreentered : f.reentered with
  | true => simp [Machine.leave, hreentered]
  | false =>
    cases hclean : m.registry.gShouldCleanupDeadNodes with
    | true => simp [Machine.leave, hreentered, hclean, Registry.cleanup]
    | false => simp [Machine.leave, hreentered, hclean]

theorem fresh_leave (f : Notification) (stack : List Notification) :
    (m.leave f stack).registry.fresh = m.registry.fresh := by
  rw [Machine.leave]
  dsimp only
  split_ifs <;> rfl

/-- A round of the loop ends the notification, calls a node that is alive, or goes on. -/
theorem visit_cases {f : Notification} {stack : List Notification}
    (hstep : m.visit f stack = some m') : m' = m.leave f stack ∨
      m'.registry = m.registry ∧ m'.stack ≠ [] ∧ (m'.calls = m.calls ∨
        ∃ node ∈ m.registry.gCallbacks, node.func.isSome = true ∧ m'.calls = node.id :: m.calls) := by
  rw [Machine.visit] at hstep
  cases hnode : f.node with
  | none =>
    rw [hnode] at hstep
    exact .inl (Option.some.inj hstep).symm
  | some id =>
    rw [hnode] at hstep
    dsimp only at hstep
    cases hfrom : m.registry.nodesFrom id with
    | nil => simp [hfrom] at hstep
    | cons node nodes =>
      rw [hfrom] at hstep
      dsimp only at hstep
      obtain ⟨hid, hmem⟩ := Registry.nodesFrom_cons hfrom
      split_ifs at hstep with hcall
      · rw [← Option.some.inj hstep]
        refine .inr ⟨rfl, by simp, .inr ⟨node, hmem, (Bool.and_eq_true_iff.mp hcall).1, ?_⟩⟩
        rw [hid]
      · rw [← Option.some.inj hstep]
        exact .inr ⟨rfl, by simp, .inl rfl⟩

theorem resume_cases {f : Notification} {stack : List Notification} {rv : NsResult}
    (hstep : m.resume rv f stack = some m') :
    m'.registry = m.registry ∧ m'.stack ≠ [] ∧ m'.calls = m.calls := by
  rw [Machine.resume] at hstep
  split at hstep
  · rw [← Option.some.inj hstep]
    exact ⟨rfl, by simp, rfl⟩
  · exact absurd hstep (by simp)

/-- A node that can be called. -/
def Alive (m : Machine Func Data) (id : ℕ) : Prop :=
  ∃ node ∈ m.registry.gCallbacks, node.id = id ∧ node.func.isSome = true

theorem Alive.of_subset {l : List (CallbackNode Func Data)} {id : ℕ} (h : m'.Alive id)
    (hl : m'.registry.gCallbacks = l)
    (hsub : ∀ node ∈ l, node.func.isSome = true → node ∈ m.registry.gCallbacks) : m.Alive id := by
  obtain ⟨node, hnode, hid, hfunc⟩ := h
  exact ⟨node, hsub node (hl ▸ hnode) hfunc, hid, hfunc⟩

variable [DecidableEq Func] [DecidableEq Data]

/-- The nodes that are left when callbacks are unregistered. -/
theorem mem_unregister {d : CString} {c : Func} {x : Data} {node : CallbackNode Func Data}
    (hnode : node ∈ (m.registry.PREF_UnregisterCallback d c x).2.gCallbacks)
    (hfunc : node.func.isSome = true) :
    node ∈ m.registry.gCallbacks ∧ ¬ Registry.Matches d c x node := by
  change node ∈ (Registry.unregisterLoop m.registry.gCallbacksInProgress d c x
    m.registry.gCallbacks).1 at hnode
  cases hprogress : m.registry.gCallbacksInProgress with
  | true =>
    rw [hprogress, Registry.unregisterLoop_inProgress] at hnode
    obtain ⟨n, hn, rfl⟩ := List.mem_map.mp hnode
    rw [Registry.mark] at hfunc ⊢
    split_ifs at hfunc ⊢ with hm
    · exact absurd hfunc (by simp)
    · exact ⟨hn, hm⟩
  | false =>
    rw [hprogress, Registry.unregisterLoop_idle] at hnode
    obtain ⟨hmem, hm⟩ := List.mem_filter.mp hnode
    exact ⟨hmem, of_decide_eq_true hm⟩

/-- No step gives life to a node that was there before, and only a node that is alive is
called. -/
theorem step_alive {e : Event Func Data} (hstep : m.step e = some m') :
    m.registry.fresh ≤ m'.registry.fresh ∧
      (∀ id, id < m.registry.fresh → m'.Alive id → m.Alive id) ∧
      (m'.calls = m.calls ∨ ∃ id, m.Alive id ∧ m'.calls = id :: m.calls) := by
  have hsame : ∀ r : Machine Func Data, r.registry = m.registry → ∀ id, r.Alive id → m.Alive id :=
    fun r hr id halive => halive.of_subset (by rw [hr]) fun node hnode _ => hnode
  cases e with
  | setPref changed_pref =>
    rw [Machine.step] at hstep
    split_ifs at hstep
    obtain rfl := Option.some.inj hstep
    exact ⟨Nat.le_refl _, fun id _ halive => halive, .inl rfl⟩
  | register d c x =>
    rw [Machine.step] at hstep
    split_ifs at hstep
    obtain rfl := Option.some.inj hstep
    refine ⟨Nat.le_succ _, fun id hid ⟨node, hnode, heq, hfunc⟩ => ?_, .inl rfl⟩
    rcases List.mem_cons.mp hnode with rfl | hnode
    · exact absurd hid (Nat.not_lt_of_le (Nat.le_of_eq heq))
    · exact ⟨node, hnode, heq, hfunc⟩
  | unregister d c x =>
    rw [Machine.step] at hstep
    split_ifs at hstep
    obtain rfl := Option.some.inj hstep
    exact ⟨Nat.le_refl _, fun id _ halive => halive.of_subset rfl fun node hnode hfunc =>
      (mem_unregister hnode hfunc).1, .inl rfl⟩
  | ret rv =>
    rw [Machine.step] at hstep
    cases hstack : m.stack with
    | nil => simp [hstack] at hstep
    | cons f stack =>
      rw [hstack] at hstep
      dsimp only at hstep
      split_ifs at hstep
      obtain ⟨hregistry, -, hcalls⟩ := resume_cases hstep
      exact ⟨Nat.le_of_eq (by rw [hregistry]), fun id _ => hsame m' hregistry id, .inl hcalls⟩
  | advance =>
    rw [Machine.step] at hstep
    cases hstack : m.stack with
    | nil => simp [hstack] at hstep
    | cons f stack =>
      rw [hstack] at hstep
      dsimp only at hstep
      split_ifs at hstep
      rcases visit_cases hstep with rfl | ⟨hregistry, -, hcalls⟩
      · refine ⟨Nat.le_of_eq (fresh_leave f stack).symm, fun id _ halive => ?_, .inl rfl⟩
        rcases gCallbacks_leave (m := m) f stack with hlist | ⟨-, hlist⟩
        · exact halive.of_subset hlist fun node hnode _ => hnode
        · exact halive.of_subset hlist fun node hnode _ => List.mem_of_mem_filter hnode
      · refine ⟨Nat.le_of_eq (by rw [hregistry]), fun id _ => hsame m' hregistry id, ?_⟩
        exact hcalls.imp_right fun ⟨node, hnode, hfunc, heq⟩ =>
          ⟨node.id, ⟨node, hnode, rfl, hfunc⟩, heq⟩

/-- A node that cannot be called is not called any more. -/
theorem run_silent {es : List (Event Func Data)} (hrun : run es m = some m') {id : ℕ}
    (hid : id < m.registry.fresh) (hdead : ¬ m.Alive id) : m'.calls.count id = m.calls.count id := by
  induction es generalizing m with
  | nil => rw [Option.some.inj hrun]
  | cons e es ih =>
    rw [run] at hrun
    obtain ⟨m₁, hstep, hrun⟩ := Option.bind_eq_some_iff.mp hrun
    obtain ⟨hfresh, halive, hcalls⟩ := step_alive hstep
    rw [ih hrun (Nat.lt_of_lt_of_le hid hfresh) (mt (halive id hid) hdead)]
    rcases hcalls with hcalls | ⟨n, hn, hcalls⟩
    · rw [hcalls]
    · have hne : n ≠ id := by
        rintro rfl
        exact hdead hn
      rw [hcalls, List.count_cons_of_ne hne]

/-- No node leaves the list as long as a notification is in progress. -/
theorem step_kept (h : m.Inv) {e : Event Func Data} (hstep : m.step e = some m')
    (hstack' : m'.stack ≠ []) {node : CallbackNode Func Data}
    (hnode : node ∈ m.registry.gCallbacks) :
    ∃ node' ∈ m'.registry.gCallbacks, node'.id = node.id := by
  cases e with
  | setPref changed_pref =>
    rw [Machine.step] at hstep
    split_ifs at hstep
    obtain rfl := Option.some.inj hstep
    exact ⟨node, hnode, rfl⟩
  | register d c x =>
    rw [Machine.step] at hstep
    split_ifs at hstep
    obtain rfl := Option.some.inj hstep
    exact ⟨node, List.mem_cons_of_mem _ hnode, rfl⟩
  | unregister d c x =>
    rw [Machine.step] at hstep
    split_ifs at hstep
    obtain rfl := Option.some.inj hstep
    have hprogress : m.registry.gCallbacksInProgress = true := by
      rw [h.inProgress]
      simpa using hstack'
    refine ⟨Registry.mark d c x node, ?_, Registry.id_mark d c x node⟩
    show _ ∈ (Registry.unregisterLoop m.registry.gCallbacksInProgress d c x
      m.registry.gCallbacks).1
    rw [hprogress, Registry.unregisterLoop_inProgress]
    exact List.mem_map_of_mem hnode
  | ret rv =>
    rw [Machine.step] at hstep
    cases hstack : m.stack with
    | nil => simp [hstack] at hstep
    | cons f stack =>
      rw [hstack] at hstep
      dsimp only at hstep
      split_ifs at hstep
      exact ⟨node, by rwa [(resume_cases hstep).1], rfl⟩
  | advance =>
    rw [Machine.step] at hstep
    cases hstack : m.stack with
    | nil => simp [hstack] at hstep
    | cons f stack =>
      rw [hstack] at hstep
      dsimp only at hstep
      split_ifs at hstep
      rcases visit_cases hstep with rfl | ⟨hregistry, -, -⟩
      · rcases gCallbacks_leave (m := m) f stack with hlist | ⟨hreentered, -⟩
        · exact ⟨node, by rwa [hlist], rfl⟩
        · -- only the outermost notification frees nodes
          have hnested := h.reentered f stack (by rw [hstack])
          rw [hreentered] at hnested
          have hnil : stack = [] := by simpa using hnested
          exact absurd hnil hstack'
      · exact ⟨node, by rwa [hregistry], rfl⟩

/-! ### Re-entrancy -/

/-- What re-entrancy must not break: as long as a notification is in progress no node leaves
the list, and the cursors stay in it; a callback that is unregistered is not called again; a
notification calls no node twice, and once each that was there at its beginning, matches and
is still registered at its end; and no dead node is left when no notification is in
progress. -/
structure Survives (m : Machine Func Data) : Prop where
  kept : ∀ e m', m.step e = some m' → m'.stack ≠ [] → ∀ node ∈ m.registry.gCallbacks,
    ∃ node' ∈ m'.registry.gCallbacks, node'.id = node.id
  cursor : ∀ f ∈ m.stack, ∀ id, f.node = some id → ∃ node ∈ m.registry.gCallbacks, node.id = id
  silent : ∀ d c x m', m.step (.unregister d c x) = some m' → ∀ node ∈ m.registry.gCallbacks,
    node.domain = d → node.func = some c → node.data = x → ∀ es m'', run es m' = some m'' →
      m''.calls.count node.id = m'.calls.count node.id
  once : ∀ f ∈ m.stack, f.called.Nodup ∧ (f.node = none → ∀ node ∈ m.registry.gCallbacks,
    node.func.isSome = true → node.domain <+: f.changed_pref → node.id < f.first →
      node.id ∈ f.called)
  clean : m.stack = [] → ∀ node ∈ m.registry.gCallbacks, node.func.isSome = true

end Step

end Machine

end Kompozer.Prefs
