import FromScratch.Proofs.GraphEdges
import FromScratch.Lib.Loop

/-! The depth-first search and the levels. What the search returns is an order
of all nodes in which every child comes later, and it does return one whenever
there is such an order. A node's level is the length of the longest chain of
parents above it. -/

namespace FromScratch.Inference
open Lib (FiniteMap)

variable {F : Type}

namespace Graph
variable {graph : Graph F}

/-- The newest node comes first. Each is there once, and its children came before it. -/
def Closed (graph : Graph F) : List NodeRef → Prop
  | [] => True
  | ref :: earlier => (∃ entry, graph.deref ref = .ok entry ∧ ∀ child ∈ entry.children, child ∈ earlier) ∧
      ref ∉ earlier ∧ Closed graph earlier

section Soundness

/-- What a part of the search leaves to the rest. -/
structure Explored (graph : Graph F) (start finish : Search) : Prop where
  closed : Closed graph finish.visited
  order : finish.order = finish.visited.reverse
  grown : ∀ ref ∈ start.visited, ref ∈ finish.visited
  stack : finish.onStack = start.onStack
  apart : ∀ ref ∈ start.onStack, ref ∉ start.visited → ref ∉ finish.visited

namespace Explored

theorem refl {search : Search} (closed : Closed graph search.visited) (order : search.order = search.visited.reverse) :
    Explored graph search search :=
  ⟨closed, order, fun _ => id, rfl, fun _ _ => id⟩

theorem trans {first second third : Search} (head : Explored graph first second) (tail : Explored graph second third) :
    Explored graph first third where
  closed := tail.closed
  order := tail.order
  grown ref member := tail.grown ref (head.grown ref member)
  stack := tail.stack.trans head.stack
  apart ref member outside := tail.apart ref (head.stack ▸ member) (head.apart ref member outside)

end Explored

/-- A loop of visits reaches every item. -/
theorem explored_foldlM {α : Type} {visit : α → Search → Except Fault Search} {target : α → NodeRef → Prop}
    (sound : ∀ item start finish, Closed graph start.visited → start.order = start.visited.reverse →
      visit item start = .ok finish → Explored graph start finish ∧ ∀ ref, target item ref → ref ∈ finish.visited)
    (items : List α) {start finish : Search} (closed : Closed graph start.visited)
    (order : start.order = start.visited.reverse)
    (ran : items.foldlM (fun search item => visit item search) start = .ok finish) :
    Explored graph start finish ∧ ∀ item ∈ items, ∀ ref, target item ref → ref ∈ finish.visited := by
  induction items generalizing start with
  | nil =>
    cases ran
    exact ⟨.refl closed order, nofun⟩
  | cons item items ih =>
    rw [List.foldlM_cons] at ran
    obtain ⟨middle, first, rest⟩ := Lib.bind_ok ran
    obtain ⟨head, reached⟩ := sound item start middle closed order first
    obtain ⟨tail, others⟩ := ih head.closed head.order rest
    refine ⟨head.trans tail, List.forall_mem_cons.mpr ⟨fun ref same => tail.grown ref (reached ref same), others⟩⟩

theorem visit_sound {fuel : Nat} {ref : NodeRef} {start finish : Search} (closed : Closed graph start.visited)
    (order : start.order = start.visited.reverse) (ran : graph.visit fuel ref start = .ok finish) :
    Explored graph start finish ∧ ref ∈ finish.visited := by
  induction fuel generalizing ref start finish with
  | zero => cases ran
  | succ fuel ih =>
    rw [visit] at ran
    split at ran
    next seen =>
      cases ran
      exact ⟨.refl closed order, seen⟩
    next unseen =>
      split at ran
      next => cases ran
      next below =>
        obtain ⟨entry, here, ran⟩ := Lib.bind_ok ran
        obtain ⟨middle, walked, last⟩ := Lib.bind_ok ran
        cases last
        obtain ⟨inner, reached⟩ := @explored_foldlM F graph NodeRef (fun child search => graph.visit fuel child search)
          (fun child ref => ref = child) (fun child start finish closed order ran => by
            obtain ⟨explored, found⟩ := ih closed order ran
            exact ⟨explored, fun ref same => same ▸ found⟩)
          entry.children { start with onStack := ref :: start.onStack } middle closed order walked
        have outside : ref ∉ middle.visited := inner.apart ref List.mem_cons_self unseen
        refine ⟨⟨?_, ?_, ?_, ?_, ?_⟩, List.mem_cons_self⟩
        · exact ⟨⟨entry, here, fun child member => reached child member child rfl⟩, outside, inner.closed⟩
        · simp only [inner.order, List.reverse_cons]
        · exact fun other member => List.mem_cons_of_mem _ (inner.grown other member)
        · simp only [inner.stack, List.erase_cons_head]
        · intro other member unseenOther found
          rcases List.mem_cons.mp found with rfl | earlier
          · exact below member
          · exact inner.apart other (List.mem_cons_of_mem _ member) unseenOther earlier

/-- The order lists a node before its children, and every node. -/
theorem topologicalSort_sound {order : List NodeRef} (sorted : graph.topologicalSort = .ok order) :
    Closed graph order ∧ ∀ name ∈ graph.insertionOrder, ∀ entry, graph.nodeMap.lookup name = some entry →
      entry.ref ∈ order := by
  obtain ⟨search, walked, last⟩ := Lib.bind_ok sorted
  cases last
  obtain ⟨explored, reached⟩ := @explored_foldlM F graph Text (fun name search => do
      let entry ← graph.entryAt name
      graph.visit (graph.nodeMap.keys.length + 1) entry.ref search)
    (fun name ref => ∃ entry, graph.nodeMap.lookup name = some entry ∧ ref = entry.ref)
    (fun name start finish closed order ran => by
      obtain ⟨entry, here, ran⟩ := Lib.bind_ok ran
      obtain ⟨explored, found⟩ := visit_sound closed order ran
      refine ⟨explored, ?_⟩
      rintro ref ⟨other, same, rfl⟩
      rw [entryAt, same] at here
      cases here
      exact found)
    graph.insertionOrder {} search trivial rfl walked
  rw [explored.order, List.reverse_reverse]
  exact ⟨explored.closed, fun name member entry found => reached name member entry.ref ⟨entry, found, rfl⟩⟩

theorem Closed.nodup {order : List NodeRef} (closed : Closed graph order) : order.Nodup := by
  induction order with
  | nil => exact List.nodup_nil
  | cons ref earlier ih => exact List.nodup_cons.mpr ⟨closed.2.1, ih closed.2.2⟩

theorem Closed.live {order : List NodeRef} (closed : Closed graph order) {ref : NodeRef} (member : ref ∈ order) :
    ∃ entry, graph.deref ref = .ok entry := by
  induction order with
  | nil => cases member
  | cons first earlier ih =>
    rcases List.mem_cons.mp member with rfl | later
    · obtain ⟨entry, here, _⟩ := closed.1
      exact ⟨entry, here⟩
    · exact ih closed.2.2 later

theorem Closed.children {order : List NodeRef} (closed : Closed graph order) {ref child : NodeRef} (member : ref ∈ order)
    {entry : NodeEntry F} (here : graph.deref ref = .ok entry) (below : child ∈ entry.children) : child ∈ order := by
  induction order with
  | nil => cases member
  | cons first earlier ih =>
    rcases List.mem_cons.mp member with rfl | later
    · obtain ⟨other, found, all⟩ := closed.1
      cases here.symm.trans found
      exact List.mem_cons_of_mem _ (all child below)
    · exact List.mem_cons_of_mem _ (ih closed.2.2 later)

/-- No node has a child before it. -/
theorem Closed.pairwise {order : List NodeRef} (closed : Closed graph order) :
    order.Pairwise fun first second => ∀ entry, graph.deref second = .ok entry → first ∉ entry.children := by
  induction order with
  | nil => exact List.Pairwise.nil
  | cons ref earlier ih =>
    refine List.Pairwise.cons (fun second later entry here below => ?_) (ih closed.2.2)
    exact closed.2.1 (closed.2.2.children later here below)

end Soundness

section Completeness

/-- A search that follows a falling rank meets no cycle. -/
theorem visit_complete {rank : NodeRef → Nat} {live : NodeRef → Prop}
    (descends : ∀ ref, live ref → ∃ entry, graph.deref ref = .ok entry ∧
      ∀ child ∈ entry.children, live child ∧ rank child < rank ref)
    {fuel : Nat} {ref : NodeRef} (known : live ref) (enough : rank ref < fuel) {start : Search}
    (above : ∀ other ∈ start.onStack, rank ref < rank other) :
    ∃ finish, graph.visit fuel ref start = .ok finish ∧ finish.onStack = start.onStack := by
  induction fuel generalizing ref start with
  | zero => omega
  | succ fuel ih =>
    rw [visit]
    split
    · exact ⟨start, rfl, rfl⟩
    have apart : ref ∉ start.onStack := fun member => absurd (above ref member) (lt_irrefl _)
    rw [if_neg apart]
    obtain ⟨entry, here, lower⟩ := descends ref known
    have walk : ∀ (children : List NodeRef) (search : Search), (∀ child ∈ children, live child ∧ rank child < rank ref) →
        search.onStack = ref :: start.onStack → ∃ finish,
          children.foldlM (fun search child => graph.visit fuel child search) search = .ok finish ∧
            finish.onStack = ref :: start.onStack := by
      intro children
      induction children with
      | nil => exact fun search _ same => ⟨search, rfl, same⟩
      | cons child children rest =>
        intro search all same
        obtain ⟨liveChild, less⟩ := all child List.mem_cons_self
        have higher : ∀ other ∈ search.onStack, rank child < rank other := by
          rw [same]
          intro other member
          rcases List.mem_cons.mp member with rfl | older
          · exact less
          · exact less.trans (above other older)
        obtain ⟨middle, ran, stack⟩ := ih liveChild (show rank child < fuel by omega) higher
        obtain ⟨finish, others, still⟩ := rest middle (fun other member => all other (List.mem_cons_of_mem _ member))
          (stack.trans same)
        exact ⟨finish, by rw [List.foldlM_cons, ran]; exact others, still⟩
    obtain ⟨finish, ran, stack⟩ := walk entry.children { start with onStack := ref :: start.onStack } lower rfl
    refine ⟨⟨ref :: finish.visited, finish.onStack.erase ref, finish.order ++ [ref]⟩, ?_, ?_⟩
    · rw [here]
      change (entry.children.foldlM (fun search child => graph.visit fuel child search) _ >>= fun search => _) = _
      rw [ran]
      rfl
    · simp only [stack, List.erase_cons_head]

theorem topologicalSort_complete {rank : NodeRef → Nat} {live : NodeRef → Prop}
    (descends : ∀ ref, live ref → ∃ entry, graph.deref ref = .ok entry ∧
      ∀ child ∈ entry.children, live child ∧ rank child < rank ref)
    (bounded : ∀ ref, live ref → rank ref ≤ graph.nodeMap.keys.length)
    (listed : ∀ name ∈ graph.insertionOrder, ∃ entry, graph.nodeMap.lookup name = some entry ∧ live entry.ref) :
    ∃ order, graph.topologicalSort = .ok order := by
  have walk : ∀ (names : List Text) (search : Search), (∀ name ∈ names, name ∈ graph.insertionOrder) → search.onStack = [] →
      ∃ finish, names.foldlM (fun search name => do
        let entry ← graph.entryAt name
        graph.visit (graph.nodeMap.keys.length + 1) entry.ref search) search = .ok finish := by
    intro names
    induction names with
    | nil => exact fun search _ _ => ⟨search, rfl⟩
    | cons name names ih =>
      intro search known empty
      obtain ⟨entry, found, here⟩ := listed name (known name List.mem_cons_self)
      have above : ∀ other ∈ search.onStack, rank entry.ref < rank other := by
        rw [empty]
        exact nofun
      obtain ⟨middle, ran, stack⟩ := visit_complete descends here (Nat.lt_succ_of_le (bounded _ here)) above
      obtain ⟨finish, rest⟩ := ih middle (fun other member => known other (List.mem_cons_of_mem _ member))
        (stack.trans empty)
      refine ⟨finish, ?_⟩
      rw [List.foldlM_cons, entryAt, found]
      change (graph.visit _ _ _ >>= fun search => _) = _
      rw [ran]
      exact rest
  obtain ⟨finish, ran⟩ := walk graph.insertionOrder {} (fun _ => id) rfl
  exact ⟨finish.order.reverse, by rw [topologicalSort, ran]; rfl⟩

end Completeness

section Outcomes

/-- The recursion is never deeper than there are nodes, so that the search ends
and either returns or throws. -/
theorem visit_outcome {live : NodeRef → Prop}
    (unique : ∀ first second, live first → live second → first.name = second.name → first = second)
    (owned : ∀ ref, live ref → ∃ entry, graph.deref ref = .ok entry ∧ ∀ child ∈ entry.children, live child)
    {fuel : Nat} {ref : NodeRef} (known : live ref) {start : Search} (distinct : start.onStack.Nodup)
    (stack : ∀ other ∈ start.onStack, live other) (enough : graph.nodeMap.keys.length < fuel + start.onStack.length) :
    (∃ finish, graph.visit fuel ref start = .ok finish ∧ finish.onStack = start.onStack) ∨
      ∃ what, graph.visit fuel ref start = .error (.runtimeError what) := by
  induction fuel generalizing ref start with
  | zero =>
    have few : (start.onStack.map NodeRef.name).length ≤ graph.nodeMap.keys.length := by
      refine ((List.nodup_map_iff_inj_on distinct).mpr fun first here second there => ?_).length_le_of_subset ?_
      · exact unique first second (stack first here) (stack second there)
      · intro name member
        obtain ⟨other, here, rfl⟩ := List.mem_map.mp member
        obtain ⟨entry, points, _⟩ := owned other (stack other here)
        exact AList.mem_keys.mp ((FiniteMap.mem_iff_lookup _ _).mpr ⟨entry, (deref_ok points).1⟩)
    rw [List.length_map] at few
    omega
  | succ fuel ih =>
    rw [visit]
    split
    · exact .inl ⟨start, rfl, rfl⟩
    split
    · exact .inr ⟨_, rfl⟩
    next apart =>
    obtain ⟨entry, here, below⟩ := owned ref known
    have walk : ∀ (children : List NodeRef) (search : Search), (∀ child ∈ children, live child) →
        search.onStack = ref :: start.onStack →
          (∃ finish, children.foldlM (fun search child => graph.visit fuel child search) search = .ok finish ∧
            finish.onStack = ref :: start.onStack) ∨
          ∃ what, children.foldlM (fun search child => graph.visit fuel child search) search =
            .error (.runtimeError what) := by
      intro children
      induction children with
      | nil => exact fun search _ same => .inl ⟨search, rfl, same⟩
      | cons child children rest =>
        intro search all same
        have visited := @ih child (all child List.mem_cons_self) search
          (by rw [same]; exact List.nodup_cons.mpr ⟨apart, distinct⟩)
          (by rw [same]; exact List.forall_mem_cons.mpr ⟨known, stack⟩) (by rw [same, List.length_cons]; omega)
        rw [List.foldlM_cons]
        rcases visited with ⟨middle, ran, still⟩ | ⟨what, failed⟩
        · rw [ran]
          exact rest middle (fun other member => all other (List.mem_cons_of_mem _ member)) (still.trans same)
        · exact .inr ⟨what, by rw [failed]; rfl⟩
    rw [here]
    change (∃ finish, (entry.children.foldlM (fun search child => graph.visit fuel child search) _ >>= fun search =>
      _) = _ ∧ _) ∨
      ∃ what, (entry.children.foldlM (fun search child => graph.visit fuel child search) _ >>= fun search => _) = _
    rcases walk entry.children { start with onStack := ref :: start.onStack } below rfl with ⟨finish, ran, still⟩ |
      ⟨what, failed⟩
    · refine .inl ⟨_, by rw [ran]; rfl, ?_⟩
      simp only [still, List.erase_cons_head]
    · exact .inr ⟨what, by rw [failed]; rfl⟩

theorem topologicalSort_outcome {live : NodeRef → Prop}
    (unique : ∀ first second, live first → live second → first.name = second.name → first = second)
    (owned : ∀ ref, live ref → ∃ entry, graph.deref ref = .ok entry ∧ ∀ child ∈ entry.children, live child)
    (listed : ∀ name ∈ graph.insertionOrder, ∃ entry, graph.nodeMap.lookup name = some entry ∧ live entry.ref) :
    (∃ order, graph.topologicalSort = .ok order) ∨ ∃ what, graph.topologicalSort = .error (.runtimeError what) := by
  have walk : ∀ (names : List Text) (search : Search), (∀ name ∈ names, name ∈ graph.insertionOrder) → search.onStack = [] →
      (∃ finish, names.foldlM (fun search name => do
        let entry ← graph.entryAt name
        graph.visit (graph.nodeMap.keys.length + 1) entry.ref search) search = .ok finish) ∨
      ∃ what, names.foldlM (fun search name => do
        let entry ← graph.entryAt name
        graph.visit (graph.nodeMap.keys.length + 1) entry.ref search) search = .error (.runtimeError what) := by
    intro names
    induction names with
    | nil => exact fun search _ _ => .inl ⟨search, rfl⟩
    | cons name names ih =>
      intro search known empty
      obtain ⟨entry, found, here⟩ := listed name (known name List.mem_cons_self)
      have visited := @visit_outcome F graph live unique owned (graph.nodeMap.keys.length + 1) entry.ref here search
        (by rw [empty]; exact List.nodup_nil) (by rw [empty]; exact nofun) (by omega)
      have first : (do
          let entry ← graph.entryAt name
          graph.visit (graph.nodeMap.keys.length + 1) entry.ref search) =
          graph.visit (graph.nodeMap.keys.length + 1) entry.ref search := by
        rw [entryAt, found]
        rfl
      rw [List.foldlM_cons, first]
      rcases visited with ⟨middle, ran, stack⟩ | ⟨what, failed⟩
      · rw [ran]
        exact ih middle (fun other member => known other (List.mem_cons_of_mem _ member)) (stack.trans empty)
      · exact .inr ⟨what, by rw [failed]; rfl⟩
  rw [topologicalSort]
  rcases walk graph.insertionOrder {} (fun _ => id) rfl with ⟨finish, ran⟩ | ⟨what, failed⟩
  · exact .inl ⟨finish.order.reverse, by rw [ran]; rfl⟩
  · exact .inr ⟨what, by rw [failed]; rfl⟩

end Outcomes

section Levels
variable {level : FiniteMap NodeRef Nat}

/-- One more than the highest of the parents that have a level. -/
theorem le_levelOf (parents : List NodeRef) (k : Nat) :
    k ≤ levelOf level parents ↔ k = 0 ∨ ∃ parent ∈ parents, ∃ found, level.lookup parent = some found ∧ k ≤ found + 1 := by
  rw [← Nat.le_zero]
  refine Lib.le_foldl (fun current parent => ?_) parents 0
  cases level.lookup parent with
  | none => simp
  | some found =>
    simp only [Option.some.injEq, exists_eq_left']
    split <;> omega

/-- The levels of an order, given those of the nodes before it. -/
def Levelled (graph : Graph F) (level : NodeRef → Nat) : List NodeRef → List NodeRef → Prop
  | _, [] => True
  | before, ref :: rest =>
    (∃ entry, graph.deref ref = .ok entry ∧
      ∀ k, k ≤ level ref ↔ k = 0 ∨ ∃ parent ∈ entry.parents, parent ∈ before ∧ k ≤ level parent + 1) ∧
    Levelled graph level (ref :: before) rest

/-- A node is on a higher level than its parents that come earlier. -/
theorem Levelled.above {level : NodeRef → Nat} {before order : List NodeRef} (levelled : Levelled graph level before order) :
    (∀ first ∈ before, ∀ second ∈ order, ∀ entry, graph.deref second = .ok entry → first ∈ entry.parents →
      level first < level second) ∧
      order.Pairwise fun first second => ∀ entry, graph.deref second = .ok entry → first ∈ entry.parents →
        level first < level second := by
  induction order generalizing before with
  | nil => exact ⟨nofun, List.Pairwise.nil⟩
  | cons ref rest ih =>
    obtain ⟨⟨entry, here, highest⟩, levelled⟩ := levelled
    obtain ⟨older, later⟩ := ih levelled
    refine ⟨fun first member second found => ?_,
      List.Pairwise.cons (fun second => older ref List.mem_cons_self second) later⟩
    rcases List.mem_cons.mp found with rfl | beyond
    · intro other same above
      cases here.symm.trans same
      exact (highest (level first + 1)).mpr (.inr ⟨first, above, member, le_rfl⟩)
    · exact older first (List.mem_cons_of_mem _ member) second beyond

theorem Levelled.pairwise {level : NodeRef → Nat} {order : List NodeRef} (levelled : Levelled graph level [] order) :
    order.Pairwise fun first second => ∀ entry, graph.deref second = .ok entry → first ∈ entry.parents →
      level first < level second :=
  levelled.above.2

/-- Where no parent comes later, a node is one level below its deepest parent. -/
theorem Levelled.deepest {level : NodeRef → Nat} {before order : List NodeRef} (levelled : Levelled graph level before order)
    (later : order.Pairwise fun first second => ∀ entry, graph.deref first = .ok entry → second ∉ entry.parents)
    (selfless : ∀ ref entry, graph.deref ref = .ok entry → ref ∉ entry.parents) {ref : NodeRef} (member : ref ∈ order) :
    ∃ entry, graph.deref ref = .ok entry ∧
      ∀ k, k < level ref ↔ ∃ parent ∈ entry.parents, (parent ∈ before ∨ parent ∈ order) ∧ k ≤ level parent := by
  induction order generalizing before with
  | nil => cases member
  | cons first rest ih =>
    obtain ⟨⟨entry, here, highest⟩, levelled⟩ := levelled
    obtain ⟨apart, later⟩ := List.pairwise_cons.mp later
    rcases List.mem_cons.mp member with rfl | member
    · refine ⟨entry, here, fun k => ?_⟩
      have positive := highest (k + 1)
      simp only [Nat.succ_le_iff, Nat.succ_ne_zero, false_or, Nat.lt_succ_iff] at positive
      rw [positive]
      refine exists_congr fun parent => and_congr_right fun above => and_congr_left fun _ => ?_
      constructor
      · exact .inl
      · rintro (early | late)
        · exact early
        rcases List.mem_cons.mp late with rfl | late
        · exact absurd above (selfless _ entry here)
        · exact absurd above (apart parent late entry here)
    · obtain ⟨entry, here, deepest⟩ := ih levelled later member
      refine ⟨entry, here, fun k => (deepest k).trans ?_⟩
      refine exists_congr fun parent => and_congr_right fun _ => and_congr_left fun _ => ?_
      rw [List.mem_cons, List.mem_cons, or_assoc, or_left_comm]

theorem levelled_foldlM {order before : List NodeRef} {start final : FiniteMap NodeRef Nat}
    (ran : order.foldlM (fun level ref => do
      let entry ← graph.deref ref
      pure (level.insert ref (levelOf level entry.parents))) start = .ok final)
    (distinct : order.Nodup) (known : ∀ ref, (∃ found, start.lookup ref = some found) ↔ ref ∈ before)
    (apart : ∀ ref ∈ order, ref ∉ before) :
    (∀ ref, ref ∉ order → final.lookup ref = start.lookup ref) ∧
      Levelled graph (fun ref => (final.lookup ref).getD 0) before order := by
  induction order generalizing start before with
  | nil =>
    cases ran
    exact ⟨fun _ _ => rfl, trivial⟩
  | cons ref order ih =>
    rw [List.foldlM_cons] at ran
    obtain ⟨middle, first, rest⟩ := Lib.bind_ok ran
    obtain ⟨entry, here, made⟩ := Lib.bind_ok first
    cases made
    obtain ⟨outside, distinct⟩ := List.nodup_cons.mp distinct
    have fresh := apart ref List.mem_cons_self
    have grown : ∀ other, (∃ found, (start.insert ref (levelOf start entry.parents)).lookup other = some found) ↔
        other ∈ ref :: before := by
      intro other
      rw [FiniteMap.lookup_insert_eq, List.mem_cons, ← known]
      by_cases same : other = ref <;> simp [same]
    obtain ⟨others, levelled⟩ := ih rest distinct grown fun other member found => by
      rcases List.mem_cons.mp found with rfl | earlier
      · exact outside member
      · exact apart other (List.mem_cons_of_mem _ member) earlier
    have placed : final.lookup ref = some (levelOf start entry.parents) := by
      rw [others ref outside, FiniteMap.lookup_insert_eq, if_pos rfl]
    have kept : ∀ other, other ≠ ref → other ∉ order → final.lookup other = start.lookup other := by
      intro other different beyond
      rw [others other beyond, FiniteMap.lookup_insert_eq, if_neg different]
    refine ⟨fun other beyond => ?_, ⟨entry, here, fun k => ?_⟩, levelled⟩
    · obtain ⟨different, later⟩ := not_or.mp (mt List.mem_cons.mpr beyond)
      exact kept other different later
    · beta_reduce
      rw [placed, Option.getD_some, le_levelOf]
      refine or_congr Iff.rfl (exists_congr fun parent => and_congr_right fun _ => ?_)
      constructor
      · rintro ⟨found, same, less⟩
        have earlier := (known parent).mp ⟨found, same⟩
        have different : parent ≠ ref := fun equal => fresh (equal ▸ earlier)
        have later : parent ∉ order := fun member => apart parent (List.mem_cons_of_mem _ member) earlier
        refine ⟨earlier, ?_⟩
        rwa [kept parent different later, same]
      · rintro ⟨earlier, less⟩
        obtain ⟨found, same⟩ := (known parent).mpr earlier
        have different : parent ≠ ref := fun equal => fresh (equal ▸ earlier)
        have later : parent ∉ order := fun member => apart parent (List.mem_cons_of_mem _ member) earlier
        rw [kept parent different later, same] at less
        exact ⟨found, same, less⟩

private theorem le_foldl_max (value : NodeRef → Nat) (order : List NodeRef) (k most : Nat) :
    k ≤ order.foldl (fun most ref => if most < value ref then value ref else most) most ↔
      k ≤ most ∨ ∃ ref ∈ order, k ≤ value ref :=
  Lib.le_foldl (fun most ref => by split <;> omega) order most

/-- The levels cut the order by a number that is one more than the highest among
the parents that come earlier. -/
theorem executionLevels_sound {levels : List (List NodeRef)} (made : graph.executionLevels = .ok levels) :
    ∃ order level count, graph.topologicalSort = .ok order ∧ Levelled graph level [] order ∧
      levels = (List.range count).map (fun current => order.filter fun ref => level ref = current) ∧
      (∀ ref ∈ order, level ref < count) ∧ (0 < count → ∃ ref ∈ order, level ref + 1 = count) := by
  obtain ⟨order, sorted, made⟩ := Lib.bind_ok made
  obtain ⟨final, walked, made⟩ := Lib.bind_ok made
  cases made
  have distinct := (topologicalSort_sound sorted).1.nodup
  have blank : ∀ ref : NodeRef, (∃ found, (∅ : FiniteMap NodeRef Nat).lookup ref = some found) ↔ ref ∈ ([] : List NodeRef) :=
    fun ref => by simp
  have levelled := (levelled_foldlM walked distinct blank nofun).2
  have reached := fun k => le_foldl_max (fun ref => (final.lookup ref).getD 0) order k 0
  have highest := fun ref (member : ref ∈ order) => (reached _).mpr (.inr ⟨ref, member, le_rfl⟩)
  refine ⟨order, _, _, sorted, levelled, rfl, fun ref member => ?_, fun positive => ?_⟩
  · rw [if_neg (List.ne_nil_of_mem member)]
    exact Nat.lt_succ_of_le (highest ref member)
  · have filled : order ≠ [] := by
      rintro rfl
      exact absurd positive (Nat.lt_irrefl 0)
    rw [if_neg filled]
    rcases (reached _).mp le_rfl with zero | ⟨ref, member, top⟩
    · obtain ⟨ref, member⟩ := List.exists_mem_of_ne_nil order filled
      exact ⟨ref, member, congrArg (· + 1) (le_antisymm (highest ref member) (zero.trans (Nat.zero_le _)))⟩
    · exact ⟨ref, member, congrArg (· + 1) (le_antisymm (highest ref member) top)⟩

theorem executionLevels_complete {order : List NodeRef} (sorted : graph.topologicalSort = .ok order) :
    ∃ levels, graph.executionLevels = .ok levels := by
  have walk : ∀ (refs : List NodeRef) (level : FiniteMap NodeRef Nat), (∀ ref ∈ refs, ref ∈ order) → ∃ final,
      refs.foldlM (fun level ref => do
        let entry ← graph.deref ref
        pure (level.insert ref (levelOf level entry.parents))) level = .ok final := by
    intro refs
    induction refs with
    | nil => exact fun level _ => ⟨level, rfl⟩
    | cons ref refs ih =>
      intro level known
      obtain ⟨entry, here⟩ := (topologicalSort_sound sorted).1.live (known ref List.mem_cons_self)
      obtain ⟨final, rest⟩ := ih (level.insert ref (levelOf level entry.parents))
        fun other member => known other (List.mem_cons_of_mem _ member)
      refine ⟨final, ?_⟩
      rw [List.foldlM_cons, here]
      exact rest
  obtain ⟨final, walked⟩ := walk order ∅ fun _ => id
  cases made : graph.executionLevels with
  | ok levels => exact ⟨levels, rfl⟩
  | error fault =>
    rcases Lib.bind_error made with failed | ⟨other, same, made⟩
    · cases sorted.symm.trans failed
    cases sorted.symm.trans same
    rcases Lib.bind_error made with failed | ⟨level, _, last⟩
    · cases walked.symm.trans failed
    · cases last

end Levels
end Graph
end FromScratch.Inference
