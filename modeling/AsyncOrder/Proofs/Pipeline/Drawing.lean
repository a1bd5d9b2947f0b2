import AsyncOrder.Proofs.Lowering.Spelling
import AsyncOrder.Proofs.Rewriting.Typing
import AsyncOrder.Proofs.Scope.Drawing
import AsyncOrder.Proofs.Scope.Reporting

/-!
# Drawings of programs

The scopes of an accepted program can be drawn once they are stitched, and when they are reduced
after that.  They may be built before or after any passes, and drawn for what is left of the
program after any edits (`drawing_exact`):

    r.dot x fails   ↔ some channel in use has not one live put and one live get in x
    r.dot x = text  → r.Shows x text

Nothing that makes a drawing hard to read comes from a program: its labels fit in a line
(`oneLine_of_mem_events`), and stitching and reducing keep scopes simple (`Stage.simple`).  As no
pass erases the end of a call that lives (`Prunes.callsEnd`), calls and children go together in a
pruned program, too (`Prunes.unstitched`).
-/

namespace AsyncOrder

open Program

variable {p q q' : Program} {c : Context} {t r : ScopeTree} {path : Path} {s s' : Scope}
variable {call : Option Nat} {kind : ScopeKind} {ops : List OpId} {e : Event} {o : OpId} {v : Nat}
variable {channel : String}

/-! ## Labels -/

theorem oneLine_of_valid (h : (Token.symbol channel).Valid) : OneLine channel := by
  obtain ⟨a, as, hchannel, ha, has⟩ := h
  rw [OneLine, hchannel, List.mem_cons, not_or]
  refine ⟨?_, fun hmem => absurd (has _ hmem) (by decide)⟩
  rintro rfl
  exact absurd ha (by decide)

theorem OpKind.Valid.oneLine_label {k : OpKind} (h : k.Valid) : OneLine k.label := by
  cases k
  case put channel =>
    show OneLine ("ChannelPutOp@" ++ channel)
    exact oneLine_append.2 ⟨by simp [OneLine], oneLine_of_valid (h.channel channel rfl)⟩
  case get channel =>
    show OneLine ("ChannelGetOp@" ++ channel)
    exact oneLine_append.2 ⟨by simp [OneLine], oneLine_of_valid (h.channel channel rfl)⟩
  case loop kind => cases kind <;> simp [OpKind.label, OneLine]
  case hierarchy level ids =>
    show OneLine (level.title ++ "Op")
    cases level <;> simp [Level.title, OneLine]
  all_goals simp [OpKind.label, OneLine]

theorem oneLine_bufferSpaceText (o : OpId) : OneLine (p.bufferSpaceText o) := by
  rw [bufferSpaceText]
  split
  · next space _ => cases space <;> simp [MemorySpace.text, OneLine]
  · simp [OneLine]

theorem oneLine_partnerSpaceText (ops : List OpId) : OneLine (p.partnerSpaceText ops) := by
  unfold partnerSpaceText
  split
  · exact oneLine_bufferSpaceText _
  · simp [OneLine]

theorem oneLine_endLabel (kind : ScopeKind) : OneLine (endLabel kind) := by
  cases kind with
  | host => simp [endLabel, OpKind.label, OneLine]
  | body level =>
    show OneLine (level.title ++ "Terminator")
    cases level <;> simp [Level.title, OneLine]

namespace Program

section

variable (hkinds : ∀ o, (p.kind o).Valid)
include hkinds

theorem oneLine_channelLabel (o : OpId) : OneLine (p.channelLabel o) := by
  have hlabel := (hkinds o).oneLine_label
  have hput : OneLine "-->" := by simp [OneLine]
  have hget : OneLine "<--" := by simp [OneLine]
  have hopen : OneLine "(" := by simp [OneLine]
  have hclose : OneLine ")" := by simp [OneLine]
  rw [channelLabel]
  split
  · next channel hkind =>
    show OneLine ((p.kind o).label ++ "(" ++ p.bufferSpaceText o ++ "-->" ++
      p.partnerSpaceText (p.gets channel) ++ ")")
    simp only [oneLine_append]
    exact ⟨⟨⟨⟨⟨hlabel, hopen⟩, oneLine_bufferSpaceText o⟩, hput⟩, oneLine_partnerSpaceText _⟩,
      hclose⟩
  · next channel hkind =>
    show OneLine ((p.kind o).label ++ "(" ++ p.bufferSpaceText o ++ "<--" ++
      p.partnerSpaceText (p.puts channel) ++ ")")
    simp only [oneLine_append]
    exact ⟨⟨⟨⟨⟨hlabel, hopen⟩, oneLine_bufferSpaceText o⟩, hget⟩, oneLine_partnerSpaceText _⟩,
      hclose⟩
  · exact hlabel

theorem oneLine_of_mem_events (he : e ∈ p.events kind o) : OneLine e.label := by
  have hcompute : ∀ e ∈ p.computeEvents o, OneLine e.label := by
    intro e he
    rw [computeEvents] at he
    split at he
    · rw [List.mem_singleton.1 he]
      simp [OpKind.label, OneLine]
    · next first rest _ =>
      rcases List.mem_cons.1 he with rfl | he
      · exact (hkinds first).oneLine_label
      · obtain ⟨z, -, rfl⟩ := List.mem_map.1 he
        exact (hkinds z).oneLine_label
  have hlabel := (hkinds o).oneLine_label
  cases hk : p.kind o <;> simp only [events, hk] at he
  case compute => exact hcompute e he
  case put | get => exact List.mem_singleton.1 he ▸ p.oneLine_channelLabel hkinds o
  case finish => exact List.mem_singleton.1 he ▸ oneLine_endLabel kind
  case yield =>
    split at he
    · exact List.mem_singleton.1 he ▸ hk ▸ hlabel
    · exact absurd he List.not_mem_nil
  all_goals first
    | exact absurd he List.not_mem_nil
    | exact List.mem_singleton.1 he ▸ hk ▸ hlabel

theorem oneLine_of_mem_layout (he : e ∈ p.layout kind ops) : OneLine e.label := by
  rcases List.mem_cons.1 he with rfl | he
  · simp [startEvent, OneLine]
  · obtain ⟨o, -, he⟩ := List.mem_flatMap.1 he
    exact oneLine_of_mem_events hkinds he

end

/-- Puts and gets have vertices for channels. -/
theorem kind_of_layout (hchannel : (p.kind o).channel?.isSome = true)
    (he : e ∈ p.layout kind ops) (hop : e.op = some o) : e.kind = .channel := by
  rcases List.mem_cons.1 he with rfl | he
  · cases hop
  · obtain ⟨z, -, he⟩ := List.mem_flatMap.1 he
    obtain ⟨i, hi⟩ := List.mem_iff_getElem?.1 he
    obtain ⟨rfl, -⟩ := getElem?_events_op hi hop
    cases hk : p.kind o <;> rw [hk] at hchannel
    case put | get =>
      rw [events, hk] at he
      rw [List.mem_singleton.1 he]
    all_goals cases hchannel

end Program

/-! ## Simple scopes -/

namespace Scope.Simple

variable (hs : s.Simple)
include hs

theorem addEdges {es : List (Nat × Nat)} (hes : ∀ e ∈ es, e.1 < s.size ∧ e.2 < s.size) :
    (s.addEdges es).Simple :=
  ⟨bounded_addEdges hs.bounded hes, Digraph.nodup_addEdges hs.nodup fun e he => (hes e he).1⟩

omit hs in
theorem of_graph (hs : s.Simple) (h : s'.graph = s.graph) : s'.Simple :=
  ⟨h ▸ hs.bounded, show s'.graph.edges.Nodup from h ▸ hs.nodup⟩

theorem close (hend : ∀ e, s.terminator = some e → e < s.size) : s.close.Simple := by
  have hclosed : s.closeEnd.Simple := hs.addEdges fun ⟨u, v⟩ he =>
    let ⟨hterm, hu, _⟩ := mem_endEdges.1 he
    ⟨hu, hend v hterm⟩
  refine hclosed.addEdges fun ⟨u, v⟩ he => ?_
  obtain ⟨rfl, hv, -⟩ := mem_startEdges.1 he
  exact ⟨Nat.lt_of_le_of_lt (Nat.zero_le v) hv, hv⟩

theorem stitched (hend : ∀ e, s.terminator = some e → e < s.size) :
    (s.stitched call).Simple :=
  (hs.close hend).of_graph graph_stitched

theorem reduce {name : String} (h : s.reduce name = .ok s') : s'.Simple := by
  have hacyc := acyclic_of_reduce hs.bounded h
  rw [reduce_eq_ok hs.bounded hacyc] at h
  obtain rfl := Except.ok.inj h
  refine ⟨Digraph.bounded_reduction hs.bounded, ?_⟩
  refine (Digraph.pairwise_reduction s.graph).imp fun {e f} hlt heq => ?_
  rw [Digraph.EdgeLt, heq] at hlt
  omega

theorem renumber : (s.renumber s.vertexMap).Simple :=
  hs.of_graph (by rw [graph, edges_renumber hs.bounded]; rfl)

end Scope.Simple

/-! ## Trees that are drawn -/

/-- The tree `t` with the edges that the tokens of `q` make, stitched, or reduced after that. -/
inductive Program.Stage (q : Program) (c : Context) (t : ScopeTree) : ScopeTree → Prop
  | stitched : Stage q c t (q.resolve c t).tree.stitch.scopes
  | reduced {r : ScopeTree} {maps : Tree VertexMap}
      (h : (q.resolve c t).tree.stitch.scopes.reduceWithMaps = .ok (r, maps)) : Stage q c t r

section

variable (ht : t.Unstitched)
include ht

theorem Tree.Unstitched.anchored : t.stitch.scopes.Anchored :=
  ht.matched.anchored_stitch fun path s e hs he => (ht.terminator path s e hs he).1

theorem Tree.Unstitched.simple_stitch
    (hsimple : ∀ path s, t.get? path = some s → s.Simple) :
    ∀ path s, t.stitch.scopes.get? path = some s → s.Simple := by
  obtain ⟨-, hget⟩ := stitchFrom_of_matched [] none ht.matched
  intro path s hs
  obtain ⟨s', hs', rfl⟩ := Option.map_eq_some_iff.1 ((hget path).symm.trans hs)
  exact (hsimple path s' hs').stitched fun e he => (ht.terminator path s' e hs' he).1

end

theorem Tree.Anchored.simple_reduceWithMaps {maps : Tree VertexMap} (ht : t.Anchored)
    (hsimple : ∀ path s, t.get? path = some s → s.Simple)
    (h : t.reduceWithMaps = .ok (r, maps)) : ∀ path s, r.get? path = some s → s.Simple := by
  obtain ⟨reduced, hreduce, h⟩ := exists_of_bind_eq_ok h
  obtain ⟨rfl, -⟩ := Prod.mk.inj (Except.ok.inj h)
  intro path s hs
  have hanchored := ht.of_plain (samePlain_reduce hreduce)
  rw [hanchored.get?_renumberFrom] at hs
  obtain ⟨s', hs', rfl⟩ := Option.map_eq_some_iff.1 hs
  have hrel := get?_of_mapWithPathM hreduce path
  rw [hs'] at hrel
  generalize ht' : t.get? path = before at hrel
  cases hrel with
  | some hok => exact ((hsimple path _ ht').reduce hok).renumber

namespace Program.Stage

section

variable (ht : t.Unstitched) (h : q.Stage c t r)
include ht h

theorem samePlain : r.SamePlain (q.resolve c t).tree.stitch.scopes := by
  cases h with
  | stitched => exact fun _ => rfl
  | reduced h => exact ((ht.resolve q c).anchored.samePlain_reduceWithMaps h).2

theorem paired : r.Paired := by
  cases h with
  | stitched => exact (ht.resolve q c).paired
  | reduced h => exact ((ht.resolve q c).paired_reduce h).1

/-- What vertices stand for does not change. -/
theorem map_events (path : Path) : (r.get? path).map (fun s => s.vertices.map Vertex.event) =
    (t.get? path).map fun s => s.vertices.map Vertex.event := by
  obtain ⟨-, hget⟩ := stitchFrom_of_matched [] none (ht.resolve q c).matched
  have hat := (h.samePlain ht path).trans (congrArg (Option.map Scope.plain) (hget path))
  rw [stitchedAt, resolve, Tree.get?_mapWithPath, Option.map_map, Option.map_map] at hat
  have hevents := congrArg (Option.map fun s : Scope => s.vertices.map Vertex.event) hat
  rw [Option.map_map, Option.map_map] at hevents
  exact hevents.trans (Option.map_congr fun s _ => Scope.map_vertices_stitched _ fun _ => rfl)

theorem map_event_vertex? (path : Path) (v : Nat) :
    (r.vertex? path v).map Vertex.event = (t.vertex? path v).map Vertex.event := by
  have hindex : ∀ t : ScopeTree, (t.vertex? path v).map Vertex.event =
      ((t.get? path).map fun s => s.vertices.map Vertex.event).bind (·[v]?) := by
    intro t
    rw [Tree.vertex?]
    cases t.get? path <;> simp
  rw [hindex, hindex, h.map_events ht]

end

end Program.Stage

/-! ## Trees of pruned programs -/

section

variable (hp : p.WellFormed) (h : p.Prunes q)
include hp h

theorem Program.Prunes.callsEnd : q.CallsEnd := by
  intro blocks o ho hcall
  obtain ⟨hmem, hlive⟩ := (h.mem_members hp.linked).1 ho
  obtain ⟨y, hnested, hy, hfinish⟩ :=
    (IsScope.body (hp.nests.lt blocks o hmem) (h.kind o ▸ hcall)).exists_finish hp
  have hbody : q.body? o = p.body? o := congrArg List.head? (h.regions o)
  have hylive := h.ends o hlive y hnested (by rw [hfinish]; rfl)
  exact ⟨y, (h.mem_members hp.linked).2 ⟨hbody ▸ hy, hylive⟩, (h.kind y).trans hfinish⟩

variable (hbuild : q.scopeTree = .ok (t, c))
include hbuild

theorem Program.Prunes.unstitched : t.Unstitched := (h.nests hp).unstitched (h.callsEnd hp) hbuild

theorem Program.Prunes.simple (hs : t.get? path = some s) : s.Simple := by
  obtain ⟨_, _, -, hdrawn⟩ := ((h.nests hp).laid hbuild).drawn_at (h.nests hp) hs
  obtain ⟨-, -, hneat⟩ := (h.nests hp).left hbuild
  refine ⟨fun u v huv => ?_, (hneat path s hs).nodup_edges⟩
  have := hdrawn.lt_of_edge huv
  change u < s.size ∧ v < s.size
  omega

/-- Edges are only made between vertices. -/
theorem Program.Prunes.simple_resolve (hs : (q'.resolve c t).tree.get? path = some s) :
    s.Simple := by
  rw [resolve, Tree.get?_mapWithPath, Option.map_eq_some_iff] at hs
  obtain ⟨s, hs, rfl⟩ := hs
  refine (h.simple hp hbuild hs).addEdges fun e he => ?_
  obtain ⟨v, hv, he⟩ := List.mem_flatMap.1 he
  obtain ⟨rfl, -, _, -, _, -, key, -, hlook⟩ := mem_edgesTo.1 he
  obtain ⟨hrecords, -⟩ := (h.nests hp).left hbuild
  obtain ⟨x, hx, -⟩ := hrecords.exists_vertex hlook
  obtain ⟨s', hs', hx⟩ := Tree.vertex?_eq_some.1 hx
  obtain rfl := Option.some.inj (hs.symm.trans hs')
  exact ⟨(List.getElem?_eq_some_iff.1 hx).1, List.mem_range.1 hv⟩

variable (hr : q'.Stage c t r)
include hr

namespace Program.Stage

theorem simple : ∀ path s, r.get? path = some s → s.Simple := by
  have ht := (h.unstitched hp hbuild).resolve q' c
  have hstitch := ht.simple_stitch fun path s => h.simple_resolve hp hbuild
  cases hr with
  | stitched => exact hstitch
  | reduced h => exact ht.anchored.simple_reduceWithMaps hstitch h

/-- The vertices of a scope stand for the events of members. -/
theorem exists_layout (hs : r.get? path = some s) : ∃ call blocks,
    s.vertices.map Vertex.event = q.layout (q.scopeKind call) (q.members blocks) := by
  have hsame := hr.map_events (h.unstitched hp hbuild) path
  rw [hs] at hsame
  obtain ⟨s', hs', hevents⟩ := Option.map_eq_some_iff.1 hsame.symm
  obtain ⟨call, blocks, -, hdrawn⟩ := ((h.nests hp).laid hbuild).drawn_at (h.nests hp) hs'
  exact ⟨call, blocks, hevents.symm.trans hdrawn.vertices⟩

/-- The vertices of an operation are where they were built. -/
theorem exists_op?_iff : (∃ x, r.vertex? path v = some x ∧ x.op = some o) ↔
    ∃ s, t.get? path = some s ∧ s.op? v = some o := by
  have hop := congrArg (Option.bind · Event.op)
    (hr.map_event_vertex? (h.unstitched hp hbuild) path v)
  simp only [Option.bind_map] at hop
  have hr : (∃ x, r.vertex? path v = some x ∧ x.op = some o) ↔
      (r.vertex? path v).bind Vertex.op = some o := Option.bind_eq_some_iff.symm
  have ht : (∃ s, t.get? path = some s ∧ s.op? v = some o) ↔
      (t.vertex? path v).bind Vertex.op = some o := by
    rw [Tree.vertex?, Option.bind_assoc]
    exact Option.bind_eq_some_iff.symm
  rw [hr, ht]
  exact hop ▸ Iff.rfl

/-- A live put or get has its vertex, which is drawn. -/
theorem exists_channelAt (ho : q.isLive o = true) (hchannel : (q.kind o).channel?.isSome = true) :
    ∃ name, r.ChannelAt o name := by
  have hasync : (q.kind o).isAsync = true ∧ (p.kind o).isComputePrimitive = false := by
    rw [← h.kind]
    cases hk : q.kind o <;> simp_all [OpKind.channel?, OpKind.isAsync, OpKind.isComputePrimitive]
  obtain ⟨path, s, call, blocks, hs, -, hmem, hdrawn⟩ :=
    h.exists_drawn hp ((h.nests hp).laid hbuild) ho hasync.2
  obtain ⟨pre, post, hops⟩ := List.append_of_mem ((h.mem_members hp.linked).2 ⟨hmem, ho⟩)
  have hv := hdrawn.op?_place hops (by simp [happens, hasync.1])
  obtain ⟨x, hx, hop⟩ := (hr.exists_op?_iff hp h hbuild).2 ⟨s, hs, hv⟩
  obtain ⟨u, hu, hget⟩ := Tree.vertex?_eq_some.1 hx
  obtain ⟨name, hname⟩ := Tree.exists_node hu _
  refine ⟨name, path, _, x, hx, hop, ?_, hname⟩
  obtain ⟨call, blocks, hevents⟩ := hr.exists_layout hp h hbuild hu
  exact kind_of_layout hchannel (hevents ▸ List.mem_map_of_mem (List.mem_of_getElem? hget)) hop

/-- There is no other vertex for it. -/
theorem channelAt_unique {a b : String} (ha : r.ChannelAt o a) (hb : r.ChannelAt o b) :
    a = b := by
  have ht := (h.nests hp).laid hbuild
  obtain ⟨path, v, x, hx, hop, -, ha⟩ := ha
  obtain ⟨path', w, y, hy, hop', -, hb⟩ := hb
  obtain ⟨s, hs, hv⟩ := (hr.exists_op?_iff hp h hbuild).1 ⟨x, hx, hop⟩
  obtain ⟨s', hs', hw⟩ := (hr.exists_op?_iff hp h hbuild).1 ⟨y, hy, hop'⟩
  obtain ⟨_, _, -, hdrawn⟩ := ht.drawn_at (h.nests hp) hs
  obtain ⟨_, _, -, hdrawn'⟩ := ht.drawn_at (h.nests hp) hs'
  obtain ⟨rfl, rfl⟩ := hdrawn.op?_inj hdrawn' hv hw
  exact Option.some.inj (ha.symm.trans hb)

/-- A program of which less lives can be drawn, too. -/
theorem drawable (hspelt : p.Spelt) {x : Program} (hx : p.Thins x)
    (hlive : ∀ o, x.isLive o = true → q.isLive o = true) : r.Drawable x := by
  have hkinds : ∀ o, (q.kind o).Valid := fun o => h.kind o ▸ hspelt.kinds o
  refine ⟨fun path v y hy => ?_, fun path s hs => ?_, hr.simple hp h hbuild,
    hr.paired (h.unstitched hp hbuild), fun channel hchannel => ?_, fun o ho hchannel => ?_,
    fun o a b => hr.channelAt_unique hp h hbuild⟩
  · obtain ⟨s, hs, hy⟩ := Tree.vertex?_eq_some.1 hy
    obtain ⟨call, blocks, hevents⟩ := hr.exists_layout hp h hbuild hs
    exact oneLine_of_mem_layout hkinds (hevents ▸ List.mem_map_of_mem (List.mem_of_getElem? hy))
  · obtain ⟨call, blocks, hevents⟩ := hr.exists_layout hp h hbuild hs
    obtain ⟨y, rest, hvertices, hstart, -⟩ := List.map_eq_cons_iff.1 hevents
    exact ⟨y, Tree.vertex?_eq_some.2 ⟨s, hs, by rw [hvertices]; rfl⟩, congrArg Event.kind hstart⟩
  · obtain ⟨o, -, hkind⟩ := List.mem_filterMap.1 (List.mem_eraseDups.1 hchannel)
    exact oneLine_of_valid ((hspelt.kinds o).channel channel (hx.kind o ▸ hkind))
  · refine hr.exists_channelAt hp h hbuild (hlive o ((hx.mem_walk hp).1 ho)) ?_
    rw [h.kind, ← hx.kind]
    exact hchannel

end Program.Stage

end

/-! ## Accepted programs -/

/-- Drawing the scopes of an accepted program, built before or after any passes and stitched or
reduced, for what any edits leave of it: the failures are those of channels that have not one live
put and one live get, and if there is none, everything is drawn once and in its place. -/
theorem drawing_exact {source : String} (hsource : readProgram source = .ok p)
    {passes : List Edit} (hpasses : ∀ e ∈ passes, e.isPass = true)
    (hbuild : (p.editAll passes).scopeTree = .ok (t, c)) (hr : q'.Stage c t r)
    (edits : List Edit) :
    let x := (p.editAll passes).editAll edits
    (∀ channel o, o ∈ x.puts channel ↔ x.isLive o = true ∧ x.kind o = .put channel) ∧
    (∀ channel o, o ∈ x.gets channel ↔ x.isLive o = true ∧ x.kind o = .get channel) ∧
    (∀ channel, (x.puts channel).Nodup ∧ (x.gets channel).Nodup) ∧
    (∀ channel, channel ∈ x.channels ↔ x.puts channel ≠ [] ∨ x.gets channel ≠ []) ∧
    ((∃ f, r.dot x = .error f) ↔ ∃ channel ∈ x.channels, ¬ x.Pairs channel) ∧
    (∀ f, r.dot x = .error f ↔ ∃ channel ∈ x.channels, ¬ x.Pairs channel ∧
      (∀ c ∈ x.channels, ¬ x.Pairs c → channel ≤ c) ∧
      f = .channelNotInPairs channel (x.puts channel).length (x.gets channel).length) ∧
    ∀ text, r.dot x = .ok text → r.Shows x text := by
  have hp := wellFormed_of_readProgram hsource
  have hpruned : p.Prunes (p.editAll passes) :=
    (hp.typed.foldl fun _ h e he => h.edit hp (hpasses e he)).prunes
  intro x
  have hedits : (p.editAll passes).Changes x := changes_editAll _ edits
  have hthins : p.Thins x :=
    (hp.linked.follows.changes hp.linked ((changes_editAll p passes).trans hedits)).thins
  have hends : ∀ (k : OpKind) o, o ∈ x.walk.filter (x.kind · = k) ↔
      x.isLive o = true ∧ x.kind o = k := fun k o => by
    rw [List.mem_filter, hthins.mem_walk hp, decide_eq_true_eq]
  have hnodup := fun k : OpKind => (hthins.nodup_walk hp).filter (x.kind · = k)
  refine ⟨fun channel => hends _, fun channel => hends _, fun channel => ⟨hnodup _, hnodup _⟩,
    fun channel => mem_channels_iff, ?_, fun f => Tree.dot_eq_error_iff, fun text =>
      (hr.drawable hp hpruned hbuild (spelt_of_readProgram hsource) hthins fun _ =>
        hedits.isLive).shows⟩
  constructor
  · rintro ⟨f, hf⟩
    obtain ⟨channel, hchannel, hnot, -⟩ := Tree.dot_eq_error_iff.1 hf
    exact ⟨channel, hchannel, hnot⟩
  · rintro ⟨channel, hchannel, hnot⟩
    cases hdot : r.dot x with
    | ok text => exact absurd (Tree.exists_dot_iff.1 ⟨text, hdot⟩ channel hchannel) hnot
    | error f => exact ⟨f, rfl⟩

/-- Cleaning up is made of edits. -/
theorem editAll_eq_cleanup (p : Program) :
    p.editAll [.dedupDeps, .removeDeadComputes, .collapseJoins, .dedupDeps, .limitHierarchyDeps,
      .removeUnusedParams] = p.cleanup.1 := by
  simp only [editAll, List.foldl_cons, List.foldl_nil, edit, cleanup]

/-- A channel from the host into a launch that waits for the put through a join. -/
def channelAcross : String := "func @f(%a: memref<1, L1>, %b: memref<1, L2>) \x7b
  %p = put @ch %a
  %j = join [%p]
  %h = launch [%j] args(%x = %b) \x7b
    %g = get @ch %x
    end
  \x7d
\x7d
"

theorem drawing_exact_channelAcross : ∃ p t c r maps put get text,
    readProgram channelAcross = .ok p ∧ p.scopeTree = .ok (t, c) ∧
    (p.resolve c t).tree.stitch.scopes.reduceWithMaps = .ok (r, maps) ∧
    p.walk.length = 5 ∧ p.cleanup.1.walk.length = 4 ∧
    p.cleanup.1.puts "ch" = [put] ∧ p.cleanup.1.gets "ch" = [get] ∧
    p.cleanup.1.scopeOf put ≠ p.cleanup.1.scopeOf get ∧
    r.dot p.cleanup.1 = .ok text ∧ r.Shows p.cleanup.1 text := by
  obtain ⟨p, t, c, hsource, hbuild, htest⟩ := passes_iff.1 (show passes channelAcross (fun p _ _ =>
    p.walk.length = 5 ∧ p.cleanup.1.walk.length = 4 ∧ p.cleanup.1.puts "ch" = [⟨0⟩] ∧
      p.cleanup.1.gets "ch" = [⟨2⟩] ∧ p.cleanup.1.scopeOf ⟨0⟩ ≠ p.cleanup.1.scopeOf ⟨2⟩ ∧
      p.cleanup.1.channels = ["ch"]) = true by decide +kernel)
  obtain ⟨hwalk, hclean, hputs, hgets, hscope, hchannels⟩ := of_decide_eq_true htest
  have hp := wellFormed_of_readProgram hsource
  have hregular := (laid_of_scopeTree hp hbuild).regular_resolve hp
  obtain ⟨-, reduced, hreduce, -⟩ := hregular.reduce_stitch
  obtain ⟨maps, hmaps⟩ : ∃ maps, (p.resolve c t).tree.stitch.scopes.reduceWithMaps =
      .ok (reduced, maps) := ⟨_, hregular.reduceWithMaps_eq hreduce⟩
  have hpairs : ∀ channel ∈ p.cleanup.1.channels, p.cleanup.1.Pairs channel := by
    intro channel hchannel
    rw [hchannels, List.mem_singleton] at hchannel
    rw [hchannel, Pairs, hputs, hgets]
    exact ⟨rfl, rfl⟩
  obtain ⟨text, htext⟩ := Tree.exists_dot_iff.2 hpairs
  obtain ⟨-, -, -, -, -, -, hshows⟩ := drawing_exact hsource (List.forall_mem_nil _) hbuild
    (.reduced hmaps) [.dedupDeps, .removeDeadComputes, .collapseJoins, .dedupDeps,
      .limitHierarchyDeps, .removeUnusedParams]
  rw [editAll_eq_cleanup] at hshows
  exact ⟨p, t, c, reduced, maps, _, _, text, hsource, hbuild, hmaps, hwalk, hclean, hputs, hgets,
    hscope, htext, hshows text htext⟩

end AsyncOrder
