/-
  What of a table comes back from its text.

  The text of a table is read as an array of its rows, with their actions.  The text of a table
  of finite numbers is always read as a table again.  A number comes back if reading its digits
  gives the float that was written, which is certain when digits and power of ten are floats
  themselves; other numbers may come back as a neighbour.

  * `Step.ReadAs`: what the text of a row is read as, whatever its numbers are
    (`Table.read?_toJson`);
  * `Step.reread?` is the row that is read for a written one (`Table.ofJson?_toJson`);
  * **`Table.parses_back`**: a table comes back exactly when each of its numbers does.
-/
import ScheduleSearch.Proofs.JsonArray
import ScheduleSearch.Proofs.Reread
import ScheduleSearch.Search.Wire
import ScheduleSearch.World.Analytic

namespace ScheduleSearch

open Json

/-! ## Rows -/

namespace Step

/-- The numbers of the row are finite. -/
def IsFinite (r : Step) : Prop := r.reward.isFinite ∧ r.elapsed.isFinite

instance (r : Step) : Decidable r.IsFinite := inferInstanceAs (Decidable (_ ∧ _))

/-- The row that is read for a written one. -/
def reread? (r : Step) : Option Step := do
  return ⟨r.action, ← ScheduleSearch.reread? r.reward, ← ScheduleSearch.reread? r.elapsed⟩

end Step

theorem writes_float {x : Float} (hx : x.isFinite) : ∃ n : NumberText,
    n.float? = reread? x ∧ Writes (writeFloat x) (.number n) := by
  obtain ⟨n, hfloat, htoken⟩ := writeFloat_spec hx
  have hne : utf8 (writeFloat x) ≠ [] := by
    intro hnil
    have := htoken [byteOf ','] ⟨_, _, rfl, .inl rfl⟩
    rw [hnil] at this
    cases this
  exact ⟨n, hfloat, _, denotes_number n,
    fun rest _ hrest h => Scans.token hne (htoken rest hrest) h⟩

/-- A number is written, or null in place of one that is not finite. -/
theorem exists_writes_float (x : Float) : ∃ v : Value,
    Writes (writeFloat x) v ∧ (x.isFinite → v.float? = reread? x) := by
  by_cases hx : x.isFinite
  · obtain ⟨n, hfloat, hwrites⟩ := writes_float hx
    exact ⟨.number n, hwrites, fun _ => hfloat⟩
  · refine ⟨.null, ?_, fun h => absurd h hx⟩
    rw [writeFloat, if_neg hx]
    exact writes_null

/-- The value is an array of three: the action, and two values which are the numbers of the row
    as their digits are read, if they are finite. -/
inductive Step.ReadAs (r : Step) : Value → Prop
  | intro {action : Spelling} {reward elapsed : Value} : action.text? = some r.action →
      (r.reward.isFinite → reward.float? = ScheduleSearch.reread? r.reward) →
      (r.elapsed.isFinite → elapsed.float? = ScheduleSearch.reread? r.elapsed) →
      ReadAs r (.array [.text action, reward, elapsed])

/-- A row is written as an array of three. -/
theorem Step.exists_writes (r : Step) : ∃ v, Writes r.toJson v ∧ r.ReadAs v := by
  obtain ⟨p, htext, hp⟩ := writes_text r.action
  obtain ⟨x, hx, hreward⟩ := exists_writes_float r.reward
  obtain ⟨y, hy, helapsed⟩ := exists_writes_float r.elapsed
  exact ⟨_, Writes.writeArray (.cons hp (.cons hx (.cons hy .nil))),
    .intro htext hreward helapsed⟩

/-- A row of finite numbers is read as a row. -/
theorem Step.ReadAs.ofJson?_eq {r : Step} {v : Value} (h : r.ReadAs v) (hr : r.IsFinite) :
    Step.ofJson? v = r.reread? := by
  obtain ⟨haction, hreward, helapsed⟩ := h
  simp only [Step.ofJson?, Step.reread?, Value.text?, haction, hreward hr.1, helapsed hr.2]
  rfl

theorem Step.reread?_eq_some {r s : Step} : r.reread? = some s ↔
    s.action = r.action ∧ ScheduleSearch.reread? r.reward = some s.reward ∧
      ScheduleSearch.reread? r.elapsed = some s.elapsed := by
  obtain ⟨action, reward, elapsed⟩ := s
  simp only [Step.reread?, Option.bind_eq_bind, Option.bind_eq_some_iff, Option.pure_def,
    Option.some.injEq, Step.mk.injEq]
  constructor
  · rintro ⟨a, ha, b, hb, rfl, rfl, rfl⟩
    exact ⟨rfl, ha, hb⟩
  · rintro ⟨rfl, ha, hb⟩
    exact ⟨_, ha, _, hb, rfl, rfl, rfl⟩

theorem Step.reread?_mk {action : String} {x y x' y' : Float}
    (hx : ScheduleSearch.reread? x = some x') (hy : ScheduleSearch.reread? y = some y') :
    Step.reread? ⟨action, x, y⟩ = some ⟨action, x', y'⟩ :=
  Step.reread?_eq_some.2 ⟨rfl, hx, hy⟩

theorem Step.exists_reread {r : Step} (hr : r.IsFinite) : ∃ s, r.reread? = some s := by
  obtain ⟨x, hx⟩ := Option.isSome_iff_exists.1 (reread?_isSome hr.1)
  obtain ⟨y, hy⟩ := Option.isSome_iff_exists.1 (reread?_isSome hr.2)
  exact ⟨⟨r.action, x, y⟩, Step.reread?_mk hx hy⟩

/-! ## Tables -/

/-- The digits that are written and the power of ten are floats themselves. -/
def Exact (x : Float) : Prop :=
  (Binary.ofFloat x).written.coefficient < 2 ^ 53 ∧
    (Binary.ofFloat x).written.exponent.natAbs ≤ 22

instance (x : Float) : Decidable (Exact x) := inferInstanceAs (Decidable (_ ∧ _))

namespace Table

variable {rows : List Step}

/-- Rows are written one by one. -/
theorem exists_writes (rows : List Step) : ∃ vs,
    List.Forall₂ Writes (rows.map Step.toJson) vs ∧ List.Forall₂ Step.ReadAs rows vs := by
  induction rows with
  | nil => exact ⟨[], .nil, .nil⟩
  | cons r rows ih =>
    obtain ⟨v, hwrites, hread⟩ := r.exists_writes
    obtain ⟨vs, hwrites', hread'⟩ := ih
    exact ⟨v :: vs, .cons hwrites hwrites', .cons hread hread'⟩

/-- **The text of a table** is read as an array of its rows. -/
theorem read?_toJson (t : Table) : ∃ vs,
    Value.read? (utf8 t.toJson) = some (.array vs) ∧ List.Forall₂ Step.ReadAs t.rows vs := by
  obtain ⟨vs, hwrites, hread⟩ := exists_writes t.rows
  exact ⟨vs, read?_writeArray hwrites, hread⟩

theorem mapM_ofJson? {vs : List Value} (hread : List.Forall₂ Step.ReadAs rows vs)
    (h : ∀ r ∈ rows, r.IsFinite) : vs.mapM Step.ofJson? = rows.mapM Step.reread? := by
  induction hread with
  | nil => rfl
  | cons hv _ ih =>
    obtain ⟨hr, hrows⟩ := List.forall_mem_cons.1 h
    rw [List.mapM_cons, List.mapM_cons, hv.ofJson?_eq hr, ih hrows]

/-- Reading the text of a table reads each of its rows back. -/
theorem ofJson?_toJson {t : Table} (h : ∀ r ∈ t.rows, r.IsFinite) :
    ofJson? t.toJson = (t.rows.mapM Step.reread?).map ofRows := by
  obtain ⟨vs, htext, hread⟩ := read?_toJson t
  unfold utf8 at htext
  unfold ofJson?
  rw [htext, ← mapM_ofJson? hread h]

theorem exists_rereads (h : ∀ r ∈ rows, r.IsFinite) : ∃ rows',
    rows.mapM Step.reread? = some rows' ∧
      List.Forall₂ (fun r s => r.reread? = some s) rows rows' := by
  induction rows with
  | nil => exact ⟨[], rfl, .nil⟩
  | cons r rows ih =>
    obtain ⟨s, hs⟩ := Step.exists_reread (h r List.mem_cons_self)
    obtain ⟨rows', hmap, hrows⟩ := ih fun s hs => h s (List.mem_cons_of_mem _ hs)
    refine ⟨s :: rows', ?_, .cons hs hrows⟩
    rw [List.mapM_cons, hs, hmap]
    rfl

theorem eq_iff_reread {rows' : List Step}
    (h : List.Forall₂ (fun r s => r.reread? = some s) rows rows') :
    rows' = rows ↔ ∀ r ∈ rows, r.reread? = some r := by
  induction h with
  | nil => simp
  | @cons r s rows rows' hr h ih =>
    rw [List.cons.injEq, ih, List.forall_mem_cons, hr, Option.some.injEq]

/-- **Tables**: the text of a table of finite numbers is read as a table with the same
    actions, each number as its digits are read; so the rows come back exactly when all
    numbers do, and they do if digits and powers of ten are floats. -/
theorem parses_back (t : Table) (h : ∀ r ∈ t.rows, r.IsFinite) :
    ∃ u, ofJson? t.toJson = some u ∧
      List.Forall₂ (fun r s => s.action = r.action ∧ reread? r.reward = some s.reward ∧
        reread? r.elapsed = some s.elapsed) t.rows u.rows ∧
      (u.rows = t.rows ↔
        ∀ r ∈ t.rows, reread? r.reward = some r.reward ∧ reread? r.elapsed = some r.elapsed) ∧
      ((∀ r ∈ t.rows, Exact r.reward ∧ Exact r.elapsed) → u.rows = t.rows) := by
  obtain ⟨rows', hmap, hrows⟩ := exists_rereads h
  have hiff : rows' = t.rows ↔
      ∀ r ∈ t.rows, reread? r.reward = some r.reward ∧ reread? r.elapsed = some r.elapsed := by
    rw [eq_iff_reread hrows]
    exact forall₂_congr fun r _ => by rw [Step.reread?_eq_some, and_iff_right rfl]
  refine ⟨ofRows rows', ?_, ?_⟩
  · rw [ofJson?_toJson h, hmap, Option.map_some]
  · rw [rows_ofRows]
    refine ⟨hrows.imp fun r s => Step.reread?_eq_some.1, hiff, fun hexact => hiff.2 fun r hr => ?_⟩
    obtain ⟨hreward, helapsed⟩ := hexact r hr
    exact ⟨reread?_of_exact (h r hr).1 hreward.1 hreward.2,
      reread?_of_exact (h r hr).2 helapsed.1 helapsed.2⟩

/-- A table with columns of two lengths, an escaped action and numbers that need no exact
    digits to come back. -/
theorem parses_back_uneven :
    let t : Table := ⟨["", "split \"4\"\n→"], [-0.0, 5e-324, 1], [26.4, 1e23]⟩
    (∀ r ∈ t.rows, r.IsFinite) ∧ ∃ u, ofJson? t.toJson = some u ∧ u.rows = t.rows := by
  intro t
  have hfinite : ∀ r ∈ t.rows, r.IsFinite := by decide +kernel
  obtain ⟨u, hread, -, hiff, -⟩ := parses_back t hfinite
  exact ⟨hfinite, u, hread, hiff.2 (by decide +kernel)⟩

/-- The throughput of a fresh nest has 17 digits, and comes back as its neighbour below. -/
theorem throughput_reads_lower :
    let t : Table := .ofRows [⟨"", (Nest.matmul 64 64 64).throughput, 0⟩]
    (∀ r ∈ t.rows, r.IsFinite) ∧ t.toJson = "[[\"\",26.400000000000002,0.0]]" ∧
      ofJson? t.toJson = some (.ofRows [⟨"", 26.4, 0⟩]) ∧
      ¬∃ u, ofJson? t.toJson = some u ∧ u.rows = t.rows := by
  intro t
  have hfinite : ∀ r ∈ t.rows, r.IsFinite := by decide +kernel
  have hreward : reread? (Nest.matmul 64 64 64).throughput = some 26.4 := by decide +kernel
  have hzero : reread? 0 = some 0 := by decide +kernel
  have hrow : Step.reread? ⟨"", (Nest.matmul 64 64 64).throughput, 0⟩ = some ⟨"", 26.4, 0⟩ :=
    Step.reread?_mk hreward hzero
  have hread : ofJson? t.toJson = some (.ofRows [⟨"", 26.4, 0⟩]) := by
    rw [ofJson?_toJson hfinite, rows_ofRows, List.mapM_cons, hrow]
    rfl
  refine ⟨hfinite, by decide +kernel, hread, ?_⟩
  rintro ⟨u, hu, hrows⟩
  obtain rfl : Table.ofRows [⟨"", 26.4, 0⟩] = u := Option.some_inj.1 (hread.symm.trans hu)
  rw [rows_ofRows, rows_ofRows, List.cons.injEq, Step.mk.injEq] at hrows
  exact absurd hrows.1.2.1 (by decide +kernel)

end Table

end ScheduleSearch
