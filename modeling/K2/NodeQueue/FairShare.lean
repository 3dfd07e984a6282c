import K2.Lib.Sharing
import K2.NodeQueue.Order

/-! # Weighted fair share

Of fresh jobs in one line, with every server within its quota, each pick goes to
the server charged least per weight of those with a job left. Servers that start
even are then never further apart than one job. Within the quota no sum of
charges comes near 128 bits.
-/

namespace K2.NodeQueue

open Compute FairShare

/-- The weight that counts. -/
def Tenant.weight (t : Tenant) : Nat := max t.limits.weight 1

theorem Tenant.weight_pos (t : Tenant) : 0 < t.weight := Nat.lt_of_lt_of_le Nat.zero_lt_one (Nat.le_max_right _ 1)

namespace Input

variable (input : Input)

/-- What the pick of a job is charged. -/
def charge (e : Entry) : Nat := e.job.cpu input.caps * e.job.estP50.getD input.cfg.defaultEstSecs

/-- The pick as a turn of its server. -/
def turn (e : Entry) : Turn Slot := ⟨e.job.slot, input.charge e⟩

/-- What the pick takes of the server's quota, in CPU-seconds. -/
def quotaTurn (e : Entry) : Turn Slot := ⟨e.job.slot, min (input.charge e) (2 ^ 64 - 1) / 1000⟩

def weightOf (slot : Slot) : Nat := ((tenantOf input.tenants slot).map (·.weight)).getD 1

/-- The first jobs of the order. -/
def picks (n : Nat) : List Entry := (order input).take n

/-- Has the server a job left to pick? -/
def Unpicked (n : Nat) (t : Tenant) : Prop :=
  ∃ e ∈ (order input).drop n, input.present e = true ∧ e.job.slot = t.slot

instance (n : Nat) (t : Tenant) : Decidable (input.Unpicked n t) :=
  inferInstanceAs (Decidable (∃ e ∈ _, _))

/-- What the first jobs of the order charge the server. -/
def chargedTo (n : Nat) (t : Tenant) : Nat := charged ((input.picks n).map input.turn) t.slot

/-- The largest single charge of the first jobs of the order. -/
def largestCharge (n : Nat) : Nat := largest ((input.picks n).map input.turn)

/-- How many of the first jobs of the order are the server's. -/
def picked (n : Nat) (t : Tenant) : Nat := (input.picks n).countP (·.job.slot = t.slot)

/-- Fresh jobs of one line but CI, and servers that start even and stay within
    quota. -/
structure Even (line : Line) : Prop where
  slots : (input.tenants.map (·.slot)).Nodup
  turns : line ≠ .ci
  inLine : ∀ e ∈ input.entries, input.present e = true →
    ∀ t ∈ tenantOf input.tenants e.job.slot, lineOf e.job t = line
  fresh : ∀ e ∈ input.entries, input.present e = true → isAged e.job input.now input.cfg = false
  even : ∀ t ∈ input.tenants, ∀ u ∈ input.tenants, t.usage * u.weight = u.usage * t.weight
  quota : ∀ n < (order input).length, ∀ t ∈ input.tenants, input.Unpicked n t →
    t.cpuSecsToday + charged ((input.picks n).map input.quotaTurn) t.slot < t.limits.cpuHoursDay * 3600

end Input

/-! ## One pick -/

namespace Build

variable (b : Build) (input : Input)

def used (slot : Slot) : Nat := (b.usage.lookup slot).getD 0

def spent (slot : Slot) : Nat := (b.today.lookup slot).getD 0

/-- The pending jobs are fresh, of one line, and of servers within quota. -/
structure Plain (line : Line) : Prop where
  inLine : ∀ e ∈ b.pending, ∃ t, tenantOf input.tenants e.job.slot = some t ∧ lineOf e.job t = line
  fresh : ∀ e ∈ b.pending, isAged e.job input.now input.cfg = false
  quota : ∀ e ∈ b.pending, ∀ t, tenantOf input.tenants e.job.slot = some t →
    b.spent t.slot < t.limits.cpuHoursDay * 3600

theorem getD_insert (m : FinMap Slot Nat) (x : Turn Slot) (slot : Slot) :
    ((m.insert x.who ((m.lookup x.who).getD 0 + x.cost)).lookup slot).getD 0 =
      (m.lookup slot).getD 0 + charged [x] slot := by
  rw [FinMap.lookup_insert, charged_cons, charged_nil, Nat.add_zero]
  by_cases its : x.who = slot
  · rw [if_pos its, if_pos its, Option.getD_some, its]
  · rw [if_neg its, if_neg its, Nat.add_zero]

theorem used_serve (e : Entry) (line : Line) (slot : Slot) :
    (b.serve input e line).used slot = b.used slot + charged [input.turn e] slot :=
  getD_insert b.usage (input.turn e) slot

theorem spent_serve (e : Entry) (line : Line) (slot : Slot) :
    (b.serve input e line).spent slot = b.spent slot + charged [input.quotaTurn e] slot :=
  getD_insert b.today (input.quotaTurn e) slot

/-- Is the first charged no more per weight than the second? -/
def Least (c d : Candidate) : Prop :=
  b.used c.tenant.slot * d.tenant.weight ≤ b.used d.tenant.slot * c.tenant.weight

/-- A fresh job of a server within quota. -/
structure PlainCandidate (c : Candidate) : Prop where
  fresh : isAged c.head.job input.now input.cfg = false
  quota : b.spent c.tenant.slot < c.tenant.limits.cpuHoursDay * 3600

variable {b input} {c d k : Candidate}

theorem Least.trans (first : b.Least c d) (second : b.Least d k) : b.Least c k := by
  refine Nat.le_of_mul_le_mul_left ?_ d.tenant.weight_pos
  calc d.tenant.weight * (b.used c.tenant.slot * k.tenant.weight)
      = b.used c.tenant.slot * d.tenant.weight * k.tenant.weight := by ring
    _ ≤ b.used d.tenant.slot * c.tenant.weight * k.tenant.weight := Nat.mul_le_mul_right _ first
    _ = b.used d.tenant.slot * k.tenant.weight * c.tenant.weight := by ring
    _ ≤ b.used k.tenant.slot * d.tenant.weight * c.tenant.weight := Nat.mul_le_mul_right _ second
    _ = d.tenant.weight * (b.used k.tenant.slot * c.tenant.weight) := by ring

/-- Of two such candidates, the one charged less per weight goes first. -/
theorem least_of_before (hc : b.PlainCandidate input c) (hd : b.PlainCandidate input d) :
    (before input b c d = true → b.Least c d) ∧ (before input b c d = false → b.Least d c) := by
  have over_c : ¬ (b.today.lookup c.tenant.slot).getD 0 ≥ c.tenant.limits.cpuHoursDay * 3600 :=
    not_le.mpr hc.quota
  have over_d : ¬ (b.today.lookup d.tenant.slot).getD 0 ≥ d.tenant.limits.cpuHoursDay * 3600 :=
    not_le.mpr hd.quota
  simp only [before, hc.fresh, hd.fresh, over_c, over_d, ne_eq, not_true_eq_false, if_false,
    Bool.and_self, Bool.false_eq_true, decide_false]
  unfold Least used Tenant.weight
  split
  · simp only [decide_eq_true_eq, decide_eq_false_iff_not, not_lt]
    exact ⟨le_of_lt, id⟩
  · rename_i same
    rw [not_not] at same
    exact ⟨fun _ => same.le, fun _ => same.ge⟩

theorem best_least {candidates : List Candidate} (plain : ∀ x ∈ candidates, b.PlainCandidate input x)
    (best : b.best input candidates = some c) : ∀ x ∈ candidates, b.Least c x := by
  have keeps (rest : List Candidate) (start : Candidate) (ready : b.PlainCandidate input start)
      (rest_ready : ∀ x ∈ rest, b.PlainCandidate input x) :
      ∀ c, rest.foldl (b.better input) (some start) = some c → b.Least c start ∧ ∀ x ∈ rest, b.Least c x := by
    induction rest generalizing start with
    | nil =>
        rintro c ⟨⟩
        exact ⟨Nat.le_refl _, by simp⟩
    | cons y rest ih =>
        intro c fold
        have y_ready := rest_ready y List.mem_cons_self
        have later := fun x hx => rest_ready x (List.mem_cons_of_mem y hx)
        obtain ⟨first, second⟩ := least_of_before y_ready ready
        rw [List.foldl_cons] at fold
        cases goes : before input b y start with
        | true =>
            rw [better, if_pos goes] at fold
            obtain ⟨over_y, overrun⟩ := ih y y_ready later c fold
            exact ⟨over_y.trans (first goes), List.forall_mem_cons.mpr ⟨over_y, overrun⟩⟩
        | false =>
            rw [better, if_neg (by simp [goes])] at fold
            obtain ⟨over_start, overrun⟩ := ih start ready later c fold
            exact ⟨over_start, List.forall_mem_cons.mpr ⟨over_start.trans (second goes), overrun⟩⟩
  cases candidates with
  | nil => simp
  | cons y rest =>
      obtain ⟨over_y, overrun⟩ := keeps rest y (plain y List.mem_cons_self)
        (fun x hx => plain x (List.mem_cons_of_mem y hx)) c best
      exact List.forall_mem_cons.mpr ⟨over_y, overrun⟩

theorem of_mem_heads {line : Line} (head : c ∈ b.heads input line) :
    c.head ∈ b.pending ∧ tenantOf input.tenants c.head.job.slot = some c.tenant ∧
      c.tenant.slot = c.head.job.slot ∧ lineOf c.head.job c.tenant = line := by
  obtain ⟨slot, -, found, first⟩ := mem_heads.mp head
  obtain ⟨member, inLine⟩ := mem_of_tenantHead first
  obtain ⟨pending, rfl⟩ : c.head ∈ b.pending ∧ c.head.job.slot = slot := by
    simpa [Build.ofSlot] using member
  exact ⟨pending, found, by simpa using List.find?_some found, inLine⟩

/-- The pick is of a server charged least per weight of those with a pending job. -/
theorem pick_least {line l : Line} {e k : Entry} (plain : b.Plain input line)
    (pick : b.pick input = some (e, l)) (pending : k ∈ b.pending) :
    b.used e.job.slot * input.weightOf k.job.slot ≤ b.used k.job.slot * input.weightOf e.job.slot := by
  have next := (pick_spec pick).2.1
  simp only [Build.pick, next, Option.bind_eq_bind, Option.bind_some, Option.bind_eq_some_iff] at pick
  obtain ⟨c, best, same⟩ := pick
  cases same
  have plains : ∀ x ∈ b.heads input l, b.PlainCandidate input x := by
    intro x hx
    obtain ⟨member, found, -⟩ := of_mem_heads hx
    exact ⟨plain.fresh _ member, plain.quota _ member _ found⟩
  -- The line of the pick is that of every pending job, so each of their servers has a head in it.
  obtain ⟨member, found, at_slot, its_line⟩ := of_mem_heads (mem_of_best best)
  obtain ⟨u, known, k_line⟩ := plain.inLine k pending
  obtain rfl : l = line := by
    obtain ⟨t, found', inLine⟩ := plain.inLine _ member
    rw [found, Option.some_inj] at found'
    rw [← its_line, found', inLine]
  obtain ⟨head, first⟩ := Option.isSome_iff_exists.mp
    (tenantHead_isSome input b.rot (show k ∈ b.ofSlot k.job.slot by simpa [Build.ofSlot] using pending)
      k_line)
  have least := best_least plains best ⟨u, head⟩
    (mem_heads.mpr ⟨_, mem_slots.mpr ⟨k, pending, rfl⟩, known, first⟩)
  have u_slot : u.slot = k.job.slot := by simpa using List.find?_some known
  unfold Least at least
  rw [at_slot, u_slot] at least
  unfold Input.weightOf
  rw [found, known]
  exact least

end Build

/-! ## The picks -/

namespace Build

variable {input : Input} {line : Line}

/-- At every pick the server is charged least per weight of those with a job left,
    if each of them is within its quota then. -/
theorem drain_least (n : Nat) (b : Build) (enough : b.pending.length = n)
    (distinct : (b.pending.map (·.index)).Nodup)
    (inLine : ∀ e ∈ b.pending, ∃ t, tenantOf input.tenants e.job.slot = some t ∧ lineOf e.job t = line)
    (fresh : ∀ e ∈ b.pending, isAged e.job input.now input.cfg = false)
    (quota : ∀ before e after, drain input n b = before ++ e :: after → ∀ k ∈ e :: after,
      ∀ t, tenantOf input.tenants k.job.slot = some t →
        b.spent t.slot + charged (before.map input.quotaTurn) t.slot < t.limits.cpuHoursDay * 3600)
    {before after : List Entry} {e k : Entry} (split : drain input n b = before ++ e :: after)
    (later : k ∈ e :: after) :
    (b.used e.job.slot + charged (before.map input.turn) e.job.slot) * input.weightOf k.job.slot ≤
      (b.used k.job.slot + charged (before.map input.turn) k.job.slot) * input.weightOf e.job.slot := by
  have known : ∀ e ∈ b.pending, (tenantOf input.tenants e.job.slot).isSome := fun e he =>
    have ⟨t, found, _⟩ := inLine e he
    Option.isSome_iff_exists.mpr ⟨t, found⟩
  induction n generalizing b before with
  | zero => cases before <;> cases split
  | succ n ih =>
      have all := drain_perm input (n + 1) b enough distinct known
      have nonempty : b.pending ≠ [] := by
        intro empty
        simp [empty] at enough
      obtain ⟨⟨e₀, l⟩, pick⟩ := Option.isSome_iff_exists.mp (pick_isSome nonempty known)
      have drained : drain input (n + 1) b = e₀ :: drain input n (b.serve input e₀ l) := by
        rw [drain, pick]
      have plain : b.Plain input line := ⟨inLine, fresh, fun k hk t found => by
        have := quota [] e₀ _ drained k (drained ▸ all.mem_iff.mpr hk) t found
        simpa using this⟩
      cases before with
      | nil =>
          have here : e = e₀ := by
            rw [drained] at split
            exact (List.cons.inj split).1.symm
          subst here
          simpa using pick_least plain pick (all.mem_iff.mp (split ▸ later))
      | cons e₁ before =>
          rw [drained] at split
          obtain ⟨rfl, split'⟩ := List.cons.inj split
          have member := (pick_spec pick).1
          have removed := serve_pending input l distinct member
          have still {x : Entry} (hx : x ∈ (b.serve input e₀ l).pending) : x ∈ b.pending :=
            List.mem_of_mem_erase (removed ▸ hx)
          have tail := ih (b.serve input e₀ l) (by rw [removed, List.length_erase_of_mem member]; omega)
            (by rw [removed]; exact distinct.sublist (List.erase_sublist.map _))
            (fun x hx => inLine x (still hx)) (fun x hx => fresh x (still hx))
            (fun front x back rest k hk t found => by
              have := quota (e₀ :: front) x back (by rw [drained, rest]; rfl) k hk t found
              rw [spent_serve, Nat.add_assoc, ← charged_append]
              exact this)
            split' (fun x hx => known x (still hx))
          rw [used_serve, used_serve, Nat.add_assoc, Nat.add_assoc, ← charged_append, ← charged_append] at tail
          exact tail

end Build

namespace Input

variable {input : Input} {line : Line}

theorem used_build (slots : (input.tenants.map (·.slot)).Nodup) {t : Tenant} (known : t ∈ input.tenants) :
    input.build.used t.slot = t.usage := by
  unfold Build.used build
  rw [FinMap.lookup_foldl_insert (·.slot) (·.usage) .empty slots known]
  rfl

theorem spent_build (slots : (input.tenants.map (·.slot)).Nodup) {t : Tenant} (known : t ∈ input.tenants) :
    input.build.spent t.slot = t.cpuSecsToday := by
  unfold Build.spent build
  rw [FinMap.lookup_foldl_insert (·.slot) (·.cpuSecsToday) .empty slots known]
  rfl

variable (input) in
/-- The picks, before the jobs whose servers are away. -/
def drained : List Entry := Build.drain input input.build.pending.length input.build

variable (input) in
theorem order_eq : ∃ away, order input = input.drained ++ away ∧ ∀ e ∈ away, input.present e = false := by
  refine ⟨_, rfl, fun e he => ?_⟩
  rw [(List.perm_insertionSort _ _).mem_iff, List.mem_filter] at he
  simpa using he.2

theorem drained_perm : input.drained.Perm input.build.pending :=
  drain_perm input _ input.build rfl ((entries_nodup input).sublist (List.filter_sublist.map _))
    fun e he => by
      have := (List.mem_filter.mp he).2
      simp only [present, Bool.and_eq_true] at this
      exact this.2

theorem mem_drained {e : Entry} : e ∈ input.drained ↔ e ∈ input.entries ∧ input.present e = true := by
  rw [drained_perm.mem_iff, build, List.mem_filter]

theorem unpicked_drained {n : Nat} {t : Tenant} (left : input.Unpicked n t) :
    input.picks n = input.drained.take n ∧ ∃ e ∈ input.drained.drop n, e.job.slot = t.slot := by
  obtain ⟨e, later, here, slot⟩ := left
  obtain ⟨away, stands, absent⟩ := order_eq input
  rw [stands, List.drop_append, List.mem_append] at later
  rcases later with picked | away
  · refine ⟨?_, e, picked, slot⟩
    have short : n ≤ input.drained.length := by
      by_contra long
      rw [List.drop_eq_nil_of_le (not_le.mp long).le] at picked
      cases picked
    rw [picks, stands, List.take_append_of_le_length short]
  · rw [absent e (List.mem_of_mem_drop away)] at here
    cases here

theorem of_tenantOf {t : Tenant} {slot : Slot} (found : tenantOf input.tenants slot = some t) :
    t ∈ input.tenants ∧ t.slot = slot :=
  ⟨List.mem_of_find?_eq_some found, by simpa using List.find?_some found⟩

theorem weightOf_slot {t : Tenant} {slot : Slot} (found : tenantOf input.tenants slot = some t) :
    input.weightOf slot = t.weight := by
  unfold weightOf
  rw [found, Option.map_some, Option.getD_some]

theorem tenantOf_slot (slots : (input.tenants.map (·.slot)).Nodup) {t : Tenant} (known : t ∈ input.tenants) :
    tenantOf input.tenants t.slot = some t := by
  cases found : tenantOf input.tenants t.slot with
  | none =>
      have := List.find?_eq_none.mp found t known
      simp at this
  | some u =>
      have same : u.slot = t.slot := by simpa using List.find?_some found
      rw [List.inj_on_of_nodup_map slots (List.mem_of_find?_eq_some found) known same]

variable (even : input.Even line)
include even

theorem Even.within {before after : List Entry} {k : Entry} (split : input.drained = before ++ after)
    (later : k ∈ after) {t : Tenant} (found : tenantOf input.tenants k.job.slot = some t) :
    input.build.spent t.slot + charged (before.map input.quotaTurn) t.slot <
      t.limits.cpuHoursDay * 3600 := by
  obtain ⟨known, slot⟩ := of_tenantOf found
  obtain ⟨away, stands, -⟩ := order_eq input
  rw [split, List.append_assoc] at stands
  have present := (mem_drained.mp (show k ∈ input.drained from split ▸ List.mem_append_right _ later)).2
  have left : input.Unpicked before.length t := by
    refine ⟨k, ?_, present, slot.symm⟩
    rw [stands, List.drop_left]
    exact List.mem_append_left _ later
  have short : before.length < (order input).length := by
    rw [stands, List.length_append, List.length_append]
    have := List.length_pos_of_mem later
    omega
  have within := even.quota before.length short t known left
  rw [picks, stands, List.take_left] at within
  rw [spent_build even.slots known]
  exact within

theorem Even.leastFirst : LeastFirst input.weightOf (input.drained.map input.turn) := by
  have inLine : ∀ e ∈ input.build.pending,
      ∃ t, tenantOf input.tenants e.job.slot = some t ∧ lineOf e.job t = line := by
    intro e pending
    obtain ⟨member, here⟩ := List.mem_filter.mp pending
    obtain ⟨t, found⟩ := Option.isSome_iff_exists.mp (Bool.and_eq_true _ _ ▸ here).2
    exact ⟨t, found, even.inLine e member here t found⟩
  intro front x back split y later
  obtain ⟨before, rest, drained_eq, rfl, rest_eq⟩ := List.map_eq_append_iff.mp split
  obtain ⟨e, after, rfl, rfl, rfl⟩ := List.map_eq_cons_iff.mp rest_eq
  obtain ⟨k, hk, rfl⟩ := List.mem_map.mp later
  have least := Build.drain_least _ input.build rfl
    ((entries_nodup input).sublist (List.filter_sublist.map _)) inLine
    (fun e he => even.fresh e (List.mem_of_mem_filter he) (List.mem_filter.mp he).2)
    (fun _ _ _ split _ hk _ found => even.within split hk found)
    drained_eq (List.mem_cons_of_mem e hk)
  obtain ⟨t, found, -⟩ := inLine e (drained_perm.mem_iff.mp (drained_eq ▸ by simp))
  obtain ⟨u, found', -⟩ := inLine k (drained_perm.mem_iff.mp (drained_eq ▸ by simp [hk]))
  obtain ⟨known, slot⟩ := of_tenantOf found
  obtain ⟨known', slot'⟩ := of_tenantOf found'
  have start := even.even t known u known'
  rw [weightOf_slot found, weightOf_slot found', ← slot, ← slot', used_build even.slots known,
    used_build even.slots known', Nat.add_mul, Nat.add_mul] at least
  change charged _ e.job.slot * input.weightOf k.job.slot ≤ charged _ k.job.slot * input.weightOf e.job.slot
  rw [weightOf_slot found, weightOf_slot found', ← slot, ← slot']
  omega

end Input

/-- Weighted fair share: at every prefix of the order, two servers with jobs left
    to pick are no further apart, per weight, than the largest charge yet; with
    equal jobs their picks are as their weights up to one job. -/
theorem order_fair (input : Input) (line : Line) (even : input.Even line) (n : Nat) (a b : Tenant)
    (known_a : a ∈ input.tenants) (known_b : b ∈ input.tenants) (left_a : input.Unpicked n a)
    (left_b : input.Unpicked n b) :
    (input.chargedTo n a : ℚ) / a.weight ≤
        input.chargedTo n b / b.weight + input.largestCharge n / a.weight ∧
      ∀ cost > 0, (∀ e ∈ input.entries, input.present e = true → input.charge e = cost) →
        (input.picked n a : ℚ) ≤ input.picked n b * (a.weight / b.weight) + 1 := by
  have fair := even.leastFirst
  obtain ⟨picks, e, later, slot⟩ := Input.unpicked_drained left_a
  obtain ⟨-, k, later', slot'⟩ := Input.unpicked_drained left_b
  have split : input.drained.map input.turn =
      (input.drained.take n).map input.turn ++ (input.drained.drop n).map input.turn := by
    rw [← List.map_append, List.take_append_drop]
  have more_a : Waits ((input.drained.drop n).map input.turn) a.slot :=
    ⟨_, List.mem_map_of_mem later, slot⟩
  have more_b : Waits ((input.drained.drop n).map input.turn) b.slot :=
    ⟨_, List.mem_map_of_mem later', slot'⟩
  have weight_a := Input.weightOf_slot (Input.tenantOf_slot even.slots known_a)
  have weight_b := Input.weightOf_slot (Input.tenantOf_slot even.slots known_b)
  unfold Input.chargedTo Input.largestCharge Input.picked
  rw [picks, ← weight_a, ← weight_b]
  refine ⟨fair.ratio split more_a more_b (weight_a ▸ a.weight_pos) (weight_b ▸ b.weight_pos), ?_⟩
  intro cost pos equal
  have counts := fair.counts split more_a more_b (weight_b ▸ b.weight_pos) pos (by
    intro x hx
    obtain ⟨e, he, rfl⟩ := List.mem_map.mp hx
    obtain ⟨member, here⟩ := Input.mem_drained.mp (List.mem_of_mem_take he)
    exact equal e member here)
  rw [List.countP_map, List.countP_map] at counts
  exact counts

/-- A server's minute-long job. -/
def minuteJob (slot : Slot) (id : String) (arrival : Nat) : Queued :=
  ⟨slot, id, "w", none, .normal, some 1000, none, false, 0, arrival, some 60, none, none, true, false, none, none⟩

def serverOf (slot : Slot) (weight : Nat) : Tenant := ⟨slot, ⟨weight, .gate, true, 4, 24⟩, 0, 0, none, true⟩

/-- Two servers of weights 2 and 1, with three jobs each. -/
def twoServers : Input where
  now := 0
  cfg := .default
  caps := ⟨8000, 16 * 2 ^ 30, 1, none⟩
  tenants := [serverOf 0 2, serverOf 1 1]
  running := []
  queued := [minuteJob 0 "a1" 0, minuteJob 0 "a2" 1, minuteJob 0 "a3" 2, minuteJob 1 "b1" 3,
    minuteJob 1 "b2" 4, minuteJob 1 "b3" 5]
  rotation := .empty

theorem order_fair_two :
    (twoServers.picked 3 (serverOf 0 2) : ℚ) ≤
      twoServers.picked 3 (serverOf 1 1) * ((serverOf 0 2).weight / (serverOf 1 1).weight) + 1 :=
  (order_fair twoServers .standard
    ⟨by decide, by decide, by decide +kernel, by decide +kernel, by decide, by decide +kernel⟩ 3
    (serverOf 0 2) (serverOf 1 1) (by simp [twoServers]) (by simp [twoServers]) (by decide +kernel)
    (by decide +kernel)).2 60000 (by decide) (by decide +kernel)

example : (order twoServers).map (·.job.jobId) = ["a1", "b1", "a2", "b2", "a3", "b3"] := by decide +kernel

end K2.NodeQueue
