import Mathlib.Algebra.BigOperators.Group.List.Basic
import FromScratch.Lib.Execution

/-! What a program spends while it runs. Every answer has its price, prices add
up, and what a program has spent by the time it ends well may be read off its text. -/

namespace FromScratch.Lib.Program

universe u v w

variable {Q : Type u} {A : Q → Type v} {ε α β γ κ M : Type w}

/-- What has been spent so far, and whatever else the prices depend on. -/
structure Account (M κ : Type w) where
  spent : M
  state : κ

variable [AddCommMonoid M] (price : (question : Q) → A question → M) (moves : κ → (question : Q) → A question → κ → Prop)

/-- An answer is paid for, and nobody else touches the account. -/
def metered : Rules (Account M κ) Q A :=
  alone (fun before question answer after =>
    after.spent = before.spent + price question answer ∧ moves before.state question answer after.state) fun _ _ => True

/-- Whatever was spent before, the program adds the amount unless it fails. -/
def Spends (pre : κ → Prop) (program : Program Q A ε α) (amount : M) (post : α → κ → Prop) : Prop :=
  ∀ before, Triple (metered price moves) (fun account => account.spent = before ∧ pre account.state) program
    (Ends (fun _ => True) fun value account => account.spent = before + amount ∧ post value account.state)

namespace Spends

variable {price moves} {pre : κ → Prop} {program : Program Q A ε α} {amount first rest : M} {post : α → κ → Prop}

theorem of_eq (spends : Spends price moves pre program amount post) {other : M} (same : amount = other) :
    Spends price moves pre program other post := same ▸ spends

theorem pre_of {weaker : κ → Prop} (spends : Spends price moves weaker program amount post)
    (implies : ∀ state, pre state → weaker state) : Spends price moves pre program amount post :=
  fun before => (spends before).pre_of fun _ holds => ⟨holds.1, implies _ holds.2⟩

theorem post_of {stronger : α → κ → Prop} (spends : Spends price moves pre program amount stronger)
    (implies : ∀ value state, stronger value state → post value state) : Spends price moves pre program amount post :=
  fun before => (spends before).post_of fun value _ ends => ⟨ends.1, implies value _ ends.2⟩

theorem given {fact : Prop} (spends : fact → Spends price moves pre program amount post) :
    Spends price moves (fun state => fact ∧ pre state) program amount post :=
  fun before account holds => spends holds.2.1 before account ⟨holds.1, holds.2.2⟩

theorem pure {value : α} (implies : ∀ state, pre state → post value state) :
    Spends price moves pre (Pure.pure value : Program Q A ε α) 0 post := by
  intro before
  refine .pure stable_alone fun account holds => ⟨?_, implies _ holds.2⟩
  rw [add_zero]
  exact holds.1

theorem fail {e : ε} : Spends price moves pre (Program.fail e : Program Q A ε α) amount post :=
  fun _ => .fail fun _ _ => trivial

theorem ask {question : Q} {next : A question → Program Q A ε α} {paid : M} (reply : A question → κ → Prop)
    (served : ∀ state answer after, pre state → moves state question answer after → reply answer after)
    (charged : ∀ answer, price question answer = paid)
    (after : ∀ answer, Spends price moves (reply answer) (next answer) rest post) :
    Spends price moves pre (.ask question next) (paid + rest) post := by
  intro before
  refine .ask (fun answer account => account.spent = before + paid ∧ reply answer account.state) stable_alone ?_ ?_
  · rintro account answer last ⟨spent, holds⟩ ⟨paid, moved⟩
    refine ⟨trivial, ?_, served _ _ _ holds moved⟩
    rw [paid, charged, spent]
  · intro answer
    rw [← add_assoc]
    exact after answer (before + paid)

theorem bind {f : α → Program Q A ε β} {last : β → κ → Prop} (start : Spends price moves pre program first post)
    (after : ∀ value, Spends price moves (post value) (f value) rest last) :
    Spends price moves pre (program >>= f) (first + rest) last := by
  intro before
  refine .bind (start before) fun value => ?_
  rw [← add_assoc]
  exact after value (before + first)

theorem doomed_safe (doomed : program.Uses (fun _ => True) fun _ => False) {ends : α → Account M κ → Prop}
    (account : Account M κ) : program.Safe (metered price moves) (Ends (fun _ => True) ends) account := by
  induction program generalizing account with
  | done result =>
    cases result with
    | ok value => exact doomed.elim
    | error e => exact fun _ _ => trivial
  | ask question next ih => exact fun _ _ answer paid _ => ⟨trivial, ih answer (doomed.2 answer) paid⟩

/-- A program that is bound to fail may be said to cost anything. -/
theorem of_doomed (doomed : program.Uses (fun _ => True) fun _ => False) :
    Spends price moves pre program amount post := fun _ account _ => doomed_safe doomed account

/-- What a failure has cost does not matter where the rest is bound to fail as well. -/
theorem outcome_bind {f : Except ε α → Program Q A ε β} {last : β → κ → Prop}
    (start : Spends price moves pre program first post)
    (after : ∀ value, Spends price moves (post value) (f (.ok value)) rest last)
    (doomed : ∀ e, (f (.error e)).Uses (fun _ => True) fun _ => False) :
    Spends price moves pre (program.outcome >>= f) (first + rest) last := by
  intro before
  refine .bind (start before).outcome fun result => ?_
  cases result with
  | error e => exact fun account _ => doomed_safe (doomed e) account
  | ok value =>
    rw [← add_assoc]
    exact after value (before + first)

theorem free_bind {f : α → Program Q A ε β} {last : β → κ → Prop} (start : Spends price moves pre program 0 post)
    (after : ∀ value, Spends price moves (post value) (f value) rest last) :
    Spends price moves pre (program >>= f) rest last := (start.bind after).of_eq (zero_add _)

theorem bind_free {f : α → Program Q A ε β} {last : β → κ → Prop} (start : Spends price moves pre program first post)
    (after : ∀ value, Spends price moves (post value) (f value) 0 last) :
    Spends price moves pre (program >>= f) first last := (start.bind after).of_eq (add_zero _)

theorem free_outcome_bind {f : Except ε α → Program Q A ε β} {last : β → κ → Prop}
    (start : Spends price moves pre program 0 post)
    (after : ∀ value, Spends price moves (post value) (f (.ok value)) rest last)
    (doomed : ∀ e, (f (.error e)).Uses (fun _ => True) fun _ => False) :
    Spends price moves pre (program.outcome >>= f) rest last := (start.outcome_bind after doomed).of_eq (zero_add _)

theorem outcome_bind_free {f : Except ε α → Program Q A ε β} {last : β → κ → Prop}
    (start : Spends price moves pre program first post)
    (after : ∀ value, Spends price moves (post value) (f (.ok value)) 0 last)
    (doomed : ∀ e, (f (.error e)).Uses (fun _ => True) fun _ => False) :
    Spends price moves pre (program.outcome >>= f) first last := (start.outcome_bind after doomed).of_eq (add_zero _)

/-- The loop rule: what has been found so far goes into the invariant. -/
theorem collect {body : β → Program Q A ε α} {items : List β} (amount : β → M) (inv : List β → List α → κ → Prop)
    (step : ∀ before item todo found, items = before ++ item :: todo → Spends price moves (inv before found) (body item)
      (amount item) fun value => inv (before ++ [item]) (found ++ [value])) :
    Spends price moves (inv [] []) (Program.each body items) (items.map amount).sum (inv items) := by
  intro spent
  refine Triple.pre_of (Triple.collect
    (fun before found (account : Account M κ) => account.spent = spent + (before.map amount).sum ∧
      inv before found account.state)
    (fun _ _ => stable_alone) fun before item todo found cut => ?_) ?_
  · refine (step before item todo found cut _).post_of fun value account ends => ⟨?_, ends.2⟩
    rw [ends.1, List.map_append, List.sum_append, List.map_singleton, List.sum_singleton, add_assoc]
  · exact fun account holds => ⟨by simpa using holds.1, holds.2⟩

theorem each {body : β → Program Q A ε α} {items : List β} (value : β → α) (amount : β → M) (inv : List β → κ → Prop)
    (step : ∀ before item todo, items = before ++ item :: todo → Spends price moves (inv before) (body item) (amount item)
      fun found state => found = value item ∧ inv (before ++ [item]) state) :
    Spends price moves (inv []) (Program.each body items) (items.map amount).sum
      fun found state => found = items.map value ∧ inv items state := by
  refine (collect amount (fun before found state => found = before.map value ∧ inv before state)
    fun before item todo found cut => .given ?_).pre_of fun state holds => ⟨rfl, holds⟩
  rintro rfl
  refine (step before item todo cut).post_of fun last state ends => ?_
  obtain ⟨rfl, holds⟩ := ends
  exact ⟨by rw [List.map_append, List.map_singleton], holds⟩

/-- A program that asks only for what is free spends nothing. -/
theorem of_uses {free : Q → Prop} {value : α → Prop} (uses : program.Uses free value)
    (costless : ∀ question answer, free question → price question answer = 0)
    (kept : ∀ question answer before after, free question → moves before question answer after → pre before → pre after) :
    Spends price moves pre program 0 fun result state => value result ∧ pre state := by
  induction program with
  | done result =>
    cases result with
    | ok result => exact pure fun state holds => ⟨uses, holds⟩
    | error e => exact fail
  | ask question next ih =>
    refine of_eq (ask (fun _ => pre) (fun before answer after holds moved => kept _ _ _ _ uses.1 moved holds)
      (fun answer => costless _ _ uses.1) fun answer => ih answer (uses.2 answer)) (zero_add _)

theorem each_free {body : β → Program Q A ε α} {items : List β}
    (step : ∀ item ∈ items, Spends price moves pre (body item) 0 fun _ => pre) :
    Spends price moves pre (Program.each body items) 0 fun _ => pre := by
  induction items with
  | nil => exact pure fun _ holds => holds
  | cons item items ih =>
    refine free_bind (step item List.mem_cons_self) fun value => ?_
    refine free_bind (ih fun item listed => step item (List.mem_cons_of_mem _ listed)) fun values => ?_
    exact pure fun _ holds => holds

end Spends

/-- The program takes what has been spent from one amount to another unless it fails. -/
def Raises (pre : κ → Prop) (program : Program Q A ε α) (low high : M) (post : α → κ → Prop) : Prop :=
  ∀ base, Triple (metered price moves) (fun account => account.spent = base + low ∧ pre account.state) program
    (Ends (fun _ => True) fun value account => account.spent = base + high ∧ post value account.state)

namespace Raises

variable {price moves} {pre : κ → Prop} {program : Program Q A ε α} {low middle high : M} {post : α → κ → Prop}

theorem of_spends {amount : M} (spends : Spends price moves pre program amount post) (sum : high = low + amount) :
    Raises price moves pre program low high post := by
  subst sum
  intro base
  rw [← add_assoc]
  exact spends (base + low)

theorem spends (raises : Raises price moves pre program 0 high post) : Spends price moves pre program high post := by
  intro before
  have start := raises before
  rwa [add_zero] at start

theorem pre_of {weaker : κ → Prop} (raises : Raises price moves weaker program low high post)
    (implies : ∀ state, pre state → weaker state) : Raises price moves pre program low high post :=
  fun base => (raises base).pre_of fun _ holds => ⟨holds.1, implies _ holds.2⟩

theorem post_of {stronger : α → κ → Prop} (raises : Raises price moves pre program low high stronger)
    (implies : ∀ value state, stronger value state → post value state) : Raises price moves pre program low high post :=
  fun base => (raises base).post_of fun value _ ends => ⟨ends.1, implies value _ ends.2⟩

theorem given {fact : Prop} (raises : fact → Raises price moves pre program low high post) :
    Raises price moves (fun state => fact ∧ pre state) program low high post :=
  fun base account holds => raises holds.2.1 base account ⟨holds.1, holds.2.2⟩

theorem of_doomed (doomed : program.Uses (fun _ => True) fun _ => False) : Raises price moves pre program low high post :=
  fun _ account _ => Spends.doomed_safe doomed account

theorem bind {f : α → Program Q A ε β} {last : β → κ → Prop} (start : Raises price moves pre program low middle post)
    (after : ∀ value, Raises price moves (post value) (f value) middle high last) :
    Raises price moves pre (program >>= f) low high last :=
  fun base => .bind (start base) fun value => after value base

/-- The loop rule where the price of an item may depend on those before it. -/
theorem fold {body : γ → β → Program Q A ε γ} {items : List β} {start : γ} (total : List β → M)
    (inv : List β → γ → κ → Prop)
    (step : ∀ before item todo acc, items = before ++ item :: todo → Raises price moves (inv before acc) (body acc item)
      (total before) (total (before ++ [item])) (inv (before ++ [item]))) :
    Raises price moves (inv [] start) (Program.fold body start items) (total []) (total items) (inv items) := by
  intro base
  apply Triple.fold fun before acc (account : Account M κ) => account.spent = base + total before ∧
    inv before acc account.state
  · exact fun _ _ => stable_alone
  · exact fun before item todo acc cut => step before item todo acc cut base

end Raises
end FromScratch.Lib.Program
