/-
# `JevGrep.Worker.Order` — the order in which a directory lists its entries does not matter.

Two trees are `Reordered` if each directory lists the same entries, in an order of its own. Every path then
stands for the same text, so the plans have the same steps (`plan_perm`), and what a complete search answers
with depends on the totals alone (`search_reordered`).

* §1 reordered trees; §2 records; §3 totals; §4 plans; §5 `search`.
-/
import JevGrep.Worker.Totals

namespace JevGrep.Worker

open JevGrep.Lib

/-! ## §1 — reordered trees. -/

namespace Node

/-- The same tree with each directory listed in an order of its own. -/
inductive Reordered : Node → Node → Prop where
  | file (bytes : Bytes) : Reordered (file bytes) (file bytes)
  | other : Reordered other other
  /-- `pairs` has each entry with its node on both sides. -/
  | dir {entries entries' : List (DirName × Node)} (pairs : List (DirName × Node × Node))
      (left : entries = pairs.map fun p => (p.1, p.2.1))
      (right : (pairs.map fun p => (p.1, p.2.2)).Perm entries')
      (below : ∀ p ∈ pairs, Reordered p.2.1 p.2.2) : Reordered (dir entries) (dir entries')

namespace Reordered

theorem fileType {a b : Node} (h : Reordered a b) : b.fileType = a.fileType := by
  cases h <;> rfl

theorem readable {a b : Node} (h : Reordered a b) (limit : Nat) : b.readable limit = a.readable limit := by
  cases h <;> rfl

/-- Names stay distinct. -/
theorem distinct {a b : Node} (h : Reordered a b) (hd : Distinct a) : Distinct b := by
  induction h with
  | file bytes => exact hd
  | other => exact hd
  | dir pairs left right below ih =>
    cases hd with
    | dir _ names dots hbelow =>
      have hback : ∀ e ∈ _, ∃ p ∈ pairs, (p.1, p.2.2) = e := fun e he =>
        List.mem_map.1 (right.symm.subset he)
      have hleft : ∀ p ∈ pairs, (p.1, p.2.1) ∈ pairs.map fun p => (p.1, p.2.1) := fun p hp =>
        List.mem_map_of_mem hp
      subst left
      refine .dir _ ?_ (fun e he => ?_) fun e he => ?_
      · refine (right.map fun e => e.1.bytes).nodup_iff.1 ?_
        rw [List.map_map] at names ⊢
        exact names
      · obtain ⟨p, hp, rfl⟩ := hback e he
        exact dots (p.1, p.2.1) (hleft p hp)
      · obtain ⟨p, hp, rfl⟩ := hback e he
        exact ih p hp (hbelow _ (hleft p hp))

end Reordered

theorem child?_eq_some {entries : List (DirName × Node)} (hnames : (entries.map (·.1.bytes)).Nodup) {name : Str}
    {node : Node} :
    (dir entries).child? name = some node ↔ ∃ n : DirName, n.bytes = Utf8.encode name ∧ (n, node) ∈ entries := by
  constructor
  · intro h
    obtain ⟨entry, hfind, rfl⟩ := Option.map_eq_some_iff.1 h
    exact ⟨entry.1, by simpa using List.find?_some hfind, List.mem_of_find?_eq_some hfind⟩
  · rintro ⟨n, hname, hmem⟩
    exact child?_of_mem hnames (Utf8.decode_eq_some.2 hname) hmem

namespace Reordered

/-- The entry of a name is there on both sides or on neither. -/
theorem child {a b : Node} (h : Reordered a b) (hd : Distinct a) (name : Str) :
    (a.child? name = none ∧ b.child? name = none) ∨
    ∃ n n', a.child? name = some n ∧ b.child? name = some n' ∧ Reordered n n' ∧ Distinct n := by
  have hd' := h.distinct hd
  cases h with
  | file bytes => exact .inl ⟨rfl, rfl⟩
  | other => exact .inl ⟨rfl, rfl⟩
  | dir pairs left right below =>
    cases hd with
    | dir _ names dots hbelow =>
      cases hd' with
      | dir _ names' dots' hbelow' =>
        subst left
        by_cases hname : ∃ p ∈ pairs, p.1.bytes = Utf8.encode name
        · obtain ⟨p, hp, hbytes⟩ := hname
          have hleft : (p.1, p.2.1) ∈ pairs.map fun p => (p.1, p.2.1) := List.mem_map_of_mem hp
          have hright : (p.1, p.2.2) ∈ pairs.map fun p => (p.1, p.2.2) := List.mem_map_of_mem hp
          exact .inr ⟨p.2.1, p.2.2, (child?_eq_some names).2 ⟨p.1, hbytes, hleft⟩,
            (child?_eq_some names').2 ⟨p.1, hbytes, right.subset hright⟩, below p hp, hbelow _ hleft⟩
        · left
          constructor <;> rw [Option.eq_none_iff_forall_ne_some] <;> intro node hnode
          · obtain ⟨n, hbytes, hmem⟩ := (child?_eq_some names).1 hnode
            obtain ⟨p, hp, heq⟩ := List.mem_map.1 hmem
            exact hname ⟨p, hp, by rw [← hbytes, ← (Prod.mk.inj heq).1]⟩
          · obtain ⟨n, hbytes, hmem⟩ := (child?_eq_some names').1 hnode
            obtain ⟨p, hp, heq⟩ := List.mem_map.1 (right.symm.subset hmem)
            exact hname ⟨p, hp, by rw [← hbytes, ← (Prod.mk.inj heq).1]⟩

theorem find : ∀ (names : List Str) {a b : Node}, Reordered a b → Distinct a →
    (a.find names = none ∧ b.find names = none) ∨
    ∃ n n', a.find names = some n ∧ b.find names = some n' ∧ Reordered n n'
  | [], a, b, h, _ => .inr ⟨a, b, rfl, rfl, h⟩
  | name :: names, a, b, h, hd => by
      show ((a.child? name).bind (Node.find names) = none ∧ (b.child? name).bind (Node.find names) = none) ∨
        ∃ n n', (a.child? name).bind (Node.find names) = some n ∧
          (b.child? name).bind (Node.find names) = some n' ∧ _
      rcases h.child hd name with ⟨ha, hb⟩ | ⟨n, n', ha, hb, hbelow, hdn⟩
      · rw [ha, hb]
        exact .inl ⟨rfl, rfl⟩
      · rw [ha, hb]
        exact find names hbelow hdn

/-- A path stands for the same text. -/
theorem policy {a b : Node} (h : Reordered a b) (hd : Distinct a) (path : Str) :
    b.policy path = a.policy path ∧ (b.lookup path).isNone = (a.lookup path).isNone := by
  unfold Node.policy Node.lookup
  rcases h.find (path.splitOn '/') hd with ⟨ha, hb⟩ | ⟨n, n', ha, hb, hbelow⟩ <;> rw [ha, hb]
  · exact ⟨rfl, rfl⟩
  · exact ⟨hbelow.readable 65536, rfl⟩

end Reordered

end Node

/-! ## §2 — records. -/

theorem path_lt_or (p q : Str) : p < q ∨ p = q ∨ q < p := by
  rcases List.le_total p q with h | h
  · rcases List.le_iff_lt_or_eq.1 h with h | h
    · exact .inl h
    · exact .inr (.inl h)
  · rcases List.le_iff_lt_or_eq.1 h with h | h
    · exact .inr (.inr h)
    · exact .inr (.inl h.symm)

section Observe

variable {path p : Str} {bytes b c : Option Bytes} {rest : List (Str × Option Bytes)}

theorem observe_cons_lt (h : path < p) :
    observe path bytes ((p, b) :: rest) = (path, bytes) :: (p, b) :: rest := by
  have hne : path ≠ p := by
    rintro rfl
    exact List.lt_irrefl _ h
  rw [observe_cons, if_neg hne, if_pos h]

theorem observe_cons_self : observe path bytes ((path, b) :: rest) = (path, bytes) :: rest := by
  rw [observe_cons, if_pos rfl]

theorem observe_cons_gt (h : p < path) :
    observe path bytes ((p, b) :: rest) = (p, b) :: observe path bytes rest := by
  have hne : path ≠ p := by
    rintro rfl
    exact List.lt_irrefl _ h
  rw [observe_cons, if_neg hne, if_neg (List.lt_asymm h)]

theorem observe_comm_of_lt {q : Str} (hlt : p < q) : ∀ o : List (Str × Option Bytes),
    observe p b (observe q c o) = observe q c (observe p b o)
  | [] => by
      show observe p b [(q, c)] = observe q c [(p, b)]
      rw [observe_cons_lt hlt, observe_cons_gt hlt]
      rfl
  | (k, v) :: rest => by
      -- the place of `k` decides where the two go
      rcases path_lt_or q k with hq | rfl | hq
      · rw [observe_cons_lt hq, observe_cons_lt hlt, observe_cons_lt (List.lt_trans hlt hq), observe_cons_gt hlt,
          observe_cons_lt hq]
      · rw [observe_cons_self, observe_cons_lt hlt, observe_cons_lt hlt, observe_cons_gt hlt, observe_cons_self]
      · rw [observe_cons_gt hq]
        rcases path_lt_or p k with hp | rfl | hp
        · rw [observe_cons_lt hp, observe_cons_lt hp, observe_cons_gt hlt, observe_cons_gt hq]
        · rw [observe_cons_self, observe_cons_self, observe_cons_gt hlt]
        · rw [observe_cons_gt hp, observe_cons_gt hp, observe_cons_gt hq, observe_comm_of_lt hlt rest]

/-- Records of two paths go in in either order. -/
theorem observe_comm {q : Str} (hne : p ≠ q) (o : List (Str × Option Bytes)) :
    observe p b (observe q c o) = observe q c (observe p b o) := by
  rcases path_lt_or p q with h | h | h
  · exact observe_comm_of_lt h o
  · exact absurd h hne
  · exact (observe_comm_of_lt h o).symm

end Observe

/-- Records go in in any order if no path has two texts. -/
theorem observeAll_perm {a b : List (Str × Option Bytes)} {text : Str → Option Bytes}
    (htext : ∀ x ∈ a, x.2 = text x.1) (h : a.Perm b) (o : List (Str × Option Bytes)) :
    observeAll a o = observeAll b o := by
  refine h.foldl_eq' (fun x hx y hy o => ?_) o
  by_cases hxy : x.1 = y.1
  · have hbytes : x.2 = y.2 := by rw [htext x hx, htext y hy, hxy]
    rw [hxy, hbytes]
  · exact (observe_comm hxy o).symm

/-! ## §3 — totals. -/

section Totals

variable (engine : Engine) (matcher : Bytes → List (Nat × Nat))

/-- Totals of the same steps in another order. -/
structure Tally.Alike (a b : Tally) : Prop where
  counts : a.counts = b.counts
  hits : a.hits.Perm b.hits
  observed : a.observed.Perm b.observed

theorem tallyOf_perm {a b : List Step} (h : a.Perm b) :
    (tallyOf engine matcher a).Alike (tallyOf engine matcher b) where
  counts := by
    induction h with
    | nil => rfl
    | cons step h ih => exact congrArg (Counts.add _) ih
    | swap x y steps =>
      show (y.tally engine matcher).counts.add ((x.tally engine matcher).counts.add _)
        = (x.tally engine matcher).counts.add ((y.tally engine matcher).counts.add _)
      rw [← Counts.add_assoc, Counts.add_comm (y.tally engine matcher).counts, Counts.add_assoc]
    | trans _ _ ih ih' => exact ih.trans ih'
  hits := by
    rw [tallyOf_hits, tallyOf_hits]
    exact h.flatMap_right _
  observed := by
    rw [tallyOf_observed, tallyOf_observed]
    exact h.flatMap_right _

theorem chargeOf_perm {a b : List Hit} (h : a.Perm b) : chargeOf a = chargeOf b := by
  induction h with
  | nil => rfl
  | cons hit h ih => exact congrArg (hit.size + ·) ih
  | swap x y hits => exact Nat.add_left_comm _ _ _
  | trans _ _ ih ih' => exact ih.trans ih'

theorem total_perm {f : Option Bytes → Nat} {a b : List (Str × Option Bytes)} (h : a.Perm b) :
    total f a = total f b := by
  induction h with
  | nil => rfl
  | cons x h ih => exact congrArg (f x.2 + ·) ih
  | swap x y records => exact Nat.add_left_comm _ _ _
  | trans _ _ ih ih' => exact ih.trans ih'

end Totals

/-- Ledgers with alike totals: but for the order of the hits they are the same. -/
structure Ledger.Alike (a b : Ledger) : Prop where
  records : a.records = b.records
  counts : a.result.counts = b.result.counts
  hits : a.result.hits.Perm b.result.hits
  usedBytes : a.usedBytes = b.usedBytes

theorem Tally.Alike.plus {a b : Tally} (h : a.Alike b) {text : Str → Option Bytes}
    (htext : ∀ x ∈ a.observed, x.2 = text x.1) (l : Ledger) : (l.plus a).Alike (l.plus b) where
  records := by
    show Records.mk _ _ _ = Records.mk _ _ _
    rw [observeAll_perm htext h.observed, total_perm h.observed, total_perm h.observed]
  counts := congrArg l.result.counts.add h.counts
  hits := h.hits.append_left _
  usedBytes := congrArg (l.usedBytes + ·) (chargeOf_perm h.hits)

theorem Ledger.Alike.within {a b : Ledger} (h : a.Alike b) {r : Request} (ha : a.Within r) : b.Within r where
  visited := h.counts ▸ ha.visited
  hits := h.hits.length_eq ▸ ha.hits
  used := h.usedBytes ▸ ha.used
  policyBytes := h.records ▸ ha.policyBytes
  policyLines := h.records ▸ ha.policyLines
  observations := h.records ▸ ha.observations

/-! ## §4 — plans. -/

section Plans

variable {engine : Engine} {filter : Filter} {r : Request} {tree tree' : Node}

/-- The trees have the same ignore files. -/
def SamePolicies (tree tree' : Node) : Prop := ∀ path,
  tree'.policy path = tree.policy path ∧ (tree'.lookup path).isNone = (tree.lookup path).isNone

theorem SamePolicies.compiled (h : SamePolicies tree tree') (dir : Str) : tree'.compiled dir = tree.compiled dir := by
  rw [Node.compiled, Node.compiled, (h _).1, (h _).1]

theorem SamePolicies.inScope (h : SamePolicies tree tree') (path : Str) (directory : Bool) :
    inScope engine filter tree' path directory = inScope engine filter tree path directory := by
  have hrules : tree'.rules = tree.rules := funext fun dir => congrArg some (h.compiled dir)
  rw [Worker.inScope, Worker.inScope, hrules]

theorem SamePolicies.valid (h : SamePolicies tree tree') {dir name : Str} :
    PolicyValid engine tree' dir name ↔ PolicyValid engine tree dir name := by
  rw [policyValid_iff, policyValid_iff, (h _).1, (h _).2]

theorem SamePolicies.enterSteps (h : SamePolicies tree tree') (dir : Str) :
    enterSteps engine filter tree' dir = enterSteps engine filter tree dir := by
  unfold Worker.enterSteps
  simp only [h.valid, (h _).1]

/-- The steps of an entry, whose node is reordered. -/
theorem entrySteps_perm (hpolicies : SamePolicies tree tree') {below below' : Node → Str → List Step} {dir : Str}
    {n : DirName} {node node' : Node} (hnode : node.Reordered node')
    (hbelow : ∀ path, (below node path).Perm (below' node' path)) :
    (entrySteps engine filter r tree below dir (n, node)).Perm
      (entrySteps engine filter r tree' below' dir (n, node')) := by
  refine List.Perm.cons _ ?_
  unfold nameSteps
  dsimp only
  split
  · exact List.Perm.refl _
  split
  · exact List.Perm.refl _
  split
  · exact List.Perm.refl _
  case h_2 name _ _ _ =>
    unfold nodeSteps
    rw [hpolicies.inScope, hnode.fileType]
    split
    case isFalse => exact List.Perm.refl _
    case isTrue =>
      cases hnode with
      | file bytes => exact List.Perm.refl _
      | other => exact List.Perm.refl _
      | dir pairs left right below => exact hbelow _

/-- **The plan of a reordered tree has the same steps.** -/
theorem plan_perm (hpolicies : SamePolicies tree tree') {node node' : Node} (h : node.Reordered node')
    (levels : Nat) (dir : Str) :
    (plan engine filter r tree levels node dir).Perm (plan engine filter r tree' levels node' dir) := by
  induction h generalizing levels dir with
  | file bytes => cases levels <;> exact List.Perm.refl _
  | other => cases levels <;> exact List.Perm.refl _
  | @dir entries entries' pairs left right below ih =>
    cases levels with
    | zero => exact List.Perm.refl _
    | succ levels =>
      rw [plan_dir, plan_dir, hpolicies.enterSteps]
      refine List.Perm.append_left _ ?_
      -- first every entry with the other side's node, then the other side's order
      refine List.Perm.trans ?_ (right.flatMap_right _)
      rw [left, List.flatMap_map, List.flatMap_map]
      exact List.Perm.flatMap_left _ fun p hp =>
        entrySteps_perm hpolicies (below p hp) fun path => ih p hp levels path

end Plans

/-! ## §5 — `search`. -/

section Searched

variable {engine : Engine} {matcher : Bytes → List (Nat × Nat)} {filter : Filter} {r : Request} {tree tree' : Node}

/-- The records of a plan are the ignore files of the tree. -/
theorem scheduled_text : ∀ x ∈ (tallyOf engine matcher (scheduled engine filter r tree)).observed,
    x.2 = tree.policy x.1 := by
  have hplan : ∀ levels node dir, ∀ step ∈ plan engine filter r tree levels node dir,
      ∀ x ∈ (step.tally engine matcher).observed, x.2 = tree.policy x.1 := by
    refine plan_forall (fun x h => absurd h List.not_mem_nil) (fun x h => absurd h List.not_mem_nil)
      (fun x h => absurd h List.not_mem_nil) (fun _ _ _ x h => absurd h List.not_mem_nil) ?_
    intro dir step hstep x hx
    unfold enterSteps at hstep
    split at hstep
    · split at hstep
      · obtain rfl := List.mem_singleton.1 hstep
        rcases List.mem_pair.1 hx with rfl | rfl <;> rfl
      · obtain rfl := List.mem_singleton.1 hstep
        exact absurd hx List.not_mem_nil
    · exact absurd hstep List.not_mem_nil
  intro x hx
  rw [tallyOf_observed] at hx
  obtain ⟨step, hstep, hx⟩ := List.mem_flatMap.1 hx
  unfold scheduled at hstep
  split at hstep
  · exact absurd hstep List.not_mem_nil
  · exact hplan _ _ _ step hstep x hx

theorem scheduled_perm (h : tree.Reordered tree') (hd : tree.Distinct) :
    (scheduled engine filter r tree).Perm (scheduled engine filter r tree') := by
  unfold scheduled
  split
  · exact List.Perm.refl _
  · exact plan_perm (h.policy hd) h _ _

theorem wholeLedger_alike (h : (scheduled engine filter r tree).Perm (scheduled engine filter r tree')) :
    (wholeLedger engine matcher filter r tree).Alike (wholeLedger engine matcher filter r tree') :=
  (tallyOf_perm engine matcher h).plus scheduled_text _

/-- Answers that differ in the order of their hits. -/
structure SameAnswer (s s' : Success) : Prop where
  hits : s.hits.Perm s'.hits
  counts : s.counts = s'.counts
  policySnapshotHash : s.policySnapshotHash = s'.policySnapshotHash

theorem SameAnswer.symm {s s' : Success} (h : SameAnswer s s') : SameAnswer s' s :=
  ⟨h.hits.symm, h.counts.symm, h.policySnapshotHash.symm⟩

/-- What is answered whole of a tree is answered whole of a tree with the same steps. -/
theorem AnsweredWhole.perm (h : ∀ filter, (scheduled engine filter r tree).Perm (scheduled engine filter r tree'))
    {success : Success} (hs : AnsweredWhole engine r tree success) :
    ∃ success', AnsweredWhole engine r tree' success' ∧ SameAnswer success success' := by
  obtain ⟨matcher, scope, hmatcher, hscope, hwhole, rfl⟩ := hs.answered
  have halike : (wholeLedger engine matcher scope.toFilter r tree).Alike
      (wholeLedger engine matcher scope.toFilter r tree') := wholeLedger_alike (h _)
  refine ⟨wholeAnswer engine matcher scope.toFilter r tree',
    ⟨hs.valid, matcher, scope, hmatcher, hscope, ⟨fun step hstep => ?_, halike.within hwhole.within⟩, rfl⟩,
    halike.hits, halike.counts, ?_⟩
  · exact hwhole.clean step ((h _).mem_iff.2 hstep)
  · show snapshotHash engine _ = snapshotHash engine _
    rw [halike.records]

/-- A tree is answered whole in one way. -/
theorem AnsweredWhole.unique {s s' : Success} (h : AnsweredWhole engine r tree s)
    (h' : AnsweredWhole engine r tree s') : s = s' := by
  obtain ⟨matcher, scope, hmatcher, hscope, -, rfl⟩ := h.answered
  obtain ⟨matcher', scope', hmatcher', hscope', -, rfl⟩ := h'.answered
  obtain rfl := Option.some.inj (hmatcher.symm.trans hmatcher')
  obtain rfl := Except.ok.inj (hscope.symm.trans hscope')
  rfl

end Searched

/-- **The order of the entries does not matter**: of two systems that show one tree, each directory listed in
an order of its own, one answers whole if and only if the other does, and then with the same hits, counts and
policy hash. -/
theorem search_reordered {σ φ σ' φ' : Type} (engine : Engine) {os : Os σ φ} {os' : Os σ' φ'} {root : φ}
    {root' : φ'} {listed listed' : List (DirName × Node)} (st : Static os (.dir listed) root)
    (st' : Static os' (.dir listed') root') (hdistinct : Node.Distinct (.dir listed))
    (horder : Node.Reordered (.dir listed) (.dir listed')) (r : Request) (hread : r.read = none)
    (w : World σ φ) (w' : World σ' φ')
    (htime : ∀ s, (os.now s).1 < (os.now w.os).1 + r.deadlineMs * 1000000)
    (htime' : ∀ s, (os'.now s).1 < (os'.now w'.os).1 + r.deadlineMs * 1000000) :
    ((∃ s, (search engine os root r w).1 = .ok s ∧ s.coverage = .complete) ↔
      ∃ s', (search engine os' root' r w').1 = .ok s' ∧ s'.coverage = .complete) ∧
    ∀ s s', (search engine os root r w).1 = .ok s → s.coverage = .complete →
      (search engine os' root' r w').1 = .ok s' → s'.coverage = .complete →
      s.hits.Perm s'.hits ∧ s.counts = s'.counts ∧ s.policySnapshotHash = s'.policySnapshotHash := by
  have hdistinct' : Node.Distinct (.dir listed') := horder.distinct hdistinct
  have hperm : ∀ filter, (scheduled engine filter r (.dir listed)).Perm (scheduled engine filter r (.dir listed')) :=
    fun _ => scheduled_perm horder hdistinct
  refine ⟨⟨?_, ?_⟩, ?_⟩
  · rintro ⟨s, hrun, hcomplete⟩
    obtain ⟨t, ht, -⟩ := (answeredWhole_of_complete st hdistinct hread htime hrun hcomplete).perm hperm
    obtain ⟨s', hrun', -, hcomplete'⟩ := complete_of_answeredWhole st' hdistinct' hread htime' ht
    exact ⟨s', hrun', hcomplete'⟩
  · rintro ⟨s', hrun', hcomplete'⟩
    obtain ⟨t, ht, -⟩ := (answeredWhole_of_complete st' hdistinct' hread htime' hrun' hcomplete').perm
      fun filter => (hperm filter).symm
    obtain ⟨s, hrun, -, hcomplete⟩ := complete_of_answeredWhole st hdistinct hread htime ht
    exact ⟨s, hrun, hcomplete⟩
  · intro s s' hrun hcomplete hrun' hcomplete'
    have hs := answeredWhole_of_complete st hdistinct hread htime hrun hcomplete
    have hs' := answeredWhole_of_complete st' hdistinct' hread htime' hrun' hcomplete'
    -- the second answers what the first does, in its own order
    obtain ⟨t, ht, hsame⟩ := hs.perm hperm
    obtain rfl := ht.unique hs'
    exact ⟨hsame.hits, hsame.counts, hsame.policySnapshotHash⟩

theorem reordered_twoNames : Node.Reordered (.dir twoNames) (.dir twoNames.reverse) := by
  refine .dir (twoNames.map fun e => (e.1, e.2, e.2)) rfl ?_ fun p hp => ?_
  · exact (List.reverse_perm twoNames).symm
  · rcases List.mem_pair.1 hp with rfl | rfl <;> exact .file _

theorem search_reordered_twoNames : ∃ s s',
    (search Engine.plain (Node.os (.dir twoNames)) (.dir twoNames) (.literal ['a']) ⟨0, []⟩).1 = .ok s ∧
    (search Engine.plain (Node.os (.dir twoNames.reverse)) (.dir twoNames.reverse) (.literal ['a']) ⟨0, []⟩).1
      = .ok s' ∧ s.hits.length = 3 ∧ s.hits.Perm s'.hits ∧ s.counts = s'.counts ∧
      s.policySnapshotHash = s'.policySnapshotHash := by
  have hfound : (search Engine.plain (Node.os (.dir twoNames)) (.dir twoNames) (.literal ['a']) ⟨0, []⟩).1.toOption.map
      (fun s => (s.coverage, s.hits.length)) = some (.complete, 3) := by decide +kernel
  have hboth := search_reordered Engine.plain (Node.static (.dir twoNames))
    (Node.static (.dir twoNames.reverse)) distinct_twoNames reordered_twoNames (.literal ['a']) rfl ⟨0, []⟩
    ⟨0, []⟩ (fun _ => Nat.zero_lt_succ _) fun _ => Nat.zero_lt_succ _
  rcases hrun : (search Engine.plain (Node.os (.dir twoNames)) (.dir twoNames) (.literal ['a']) ⟨0, []⟩).1
    with code | s
  · rw [hrun] at hfound
    cases hfound
  · rw [hrun] at hfound
    obtain ⟨hcomplete, hlength⟩ := Prod.mk.inj (Option.some.inj hfound)
    obtain ⟨s', hrun', hcomplete'⟩ := hboth.1.1 ⟨s, hrun, hcomplete⟩
    exact ⟨s, s', rfl, hrun', hlength, hboth.2 s s' hrun hcomplete hrun' hcomplete'⟩

end JevGrep.Worker
