import AsyncOrder.Proofs.Scope.Linking
import AsyncOrder.Proofs.Scope.Listing
import AsyncOrder.Proofs.Scope.Statements

/-!
# Drawings of trees

Drawing all scopes fails just where some channel in use has not one put and one get, and the
failure is about the least such channel (`Tree.dot_eq_error_iff`).  If it does not fail, and every
put and get has its own vertex, the drawing says the following, each once (`Drawable.statements`):

    name [attributes];                        for every vertex
    a -> b;                                   for every edge of a scope
    a -> b [style=dotted];                    for every vertex linked to a child, to its start
    a -> b [label="channel", style=dashed,    for every channel, from its put to its get
      color=red, constraint=false];

Scopes are numbered in the order of the tree, so a path and a vertex make a name of their own
(`Tree.node?_inj`).
-/

namespace AsyncOrder

open Statement

/-! ## Results of all members -/

section

variable {α β ε : Type} {l : List α} {f : α → Except ε β} {bs : List β} {e : ε}

theorem mapM_eq_ok {g : α → β} (h : ∀ a ∈ l, f a = .ok (g a)) : l.mapM f = .ok (l.map g) := by
  induction l with
  | nil => rfl
  | cons a l ih =>
    rw [List.mapM_cons, h a List.mem_cons_self, ih fun x hx => h x (List.mem_cons_of_mem _ hx)]
    rfl

theorem exists_of_mapM_eq_ok (h : l.mapM f = .ok bs) : ∀ a ∈ l, ∃ b, f a = .ok b := by
  induction l generalizing bs with
  | nil => simp
  | cons a l ih =>
    rw [List.mapM_cons] at h
    obtain ⟨b, hb, h⟩ := exists_of_bind_eq_ok h
    obtain ⟨_, hrest, -⟩ := exists_of_bind_eq_ok h
    exact List.forall_mem_cons.2 ⟨⟨b, hb⟩, ih hrest⟩

/-- The failure is that of the first member that fails. -/
theorem exists_of_mapM_eq_error (h : l.mapM f = .error e) : ∃ before a after,
    l = before ++ a :: after ∧ (∀ x ∈ before, ∃ b, f x = .ok b) ∧ f a = .error e := by
  induction l with
  | nil => cases h
  | cons a l ih =>
    rw [List.mapM_cons] at h
    rcases error_of_bind_eq_error h with hfirst | ⟨b, hb, h⟩
    · exact ⟨[], a, l, rfl, by simp, hfirst⟩
    rcases error_of_bind_eq_error h with hrest | ⟨_, -, h⟩
    · obtain ⟨before, x, after, rfl, hok, herror⟩ := ih hrest
      exact ⟨a :: before, x, after, rfl, List.forall_mem_cons.2 ⟨⟨b, hb⟩, hok⟩, herror⟩
    · cases h

end

/-- Edges are between vertices, and none comes twice. -/
structure Scope.Simple (s : Scope) : Prop where
  bounded : s.graph.Bounded
  nodup : s.edges.Nodup

variable {p : Program} {t : ScopeTree} {path path' : Path} {s : Scope} {x : Vertex} {f : Failure}
variable {i j n v w : Nat} {name a b channel : String} {o : OpId} {st : Statement}

/-! ## Channels in pairs -/

namespace Program

/-- The channel has just one live put and one live get. -/
def Pairs (p : Program) (channel : String) : Prop :=
  (p.puts channel).length = 1 ∧ (p.gets channel).length = 1

instance : Decidable (p.Pairs channel) := inferInstanceAs (Decidable (_ ∧ _))

theorem Pairs.exists (h : p.Pairs channel) :
    ∃ put get, p.puts channel = [put] ∧ p.gets channel = [get] := by
  obtain ⟨put, hput⟩ := List.length_eq_one_iff.1 h.1
  obtain ⟨get, hget⟩ := List.length_eq_one_iff.1 h.2
  exact ⟨put, get, hput, hget⟩

/-- A channel is in use if it has a put or a get. -/
theorem mem_channels_iff : channel ∈ p.channels ↔ p.puts channel ≠ [] ∨ p.gets channel ≠ [] := by
  have hkind : ∀ k : OpKind, k.channel? = some channel ↔ k = .put channel ∨ k = .get channel := by
    intro k
    cases k <;> simp [OpKind.channel?]
  simp only [channels, List.mem_eraseDups, List.mem_filterMap, hkind, puts, gets, ne_eq,
    List.filter_eq_nil_iff, decide_eq_true_eq, not_forall, not_not]
  constructor
  · rintro ⟨o, ho, h | h⟩
    · exact Or.inl ⟨o, ho, h⟩
    · exact Or.inr ⟨o, ho, h⟩
  · rintro (⟨o, ho, h⟩ | ⟨o, ho, h⟩)
    · exact ⟨o, ho, Or.inl h⟩
    · exact ⟨o, ho, Or.inr h⟩

end Program

namespace Tree

theorem mem_sortedChannels : channel ∈ sortedChannels p ↔ channel ∈ p.channels := List.mem_mergeSort

theorem nodup_sortedChannels (p : Program) : (sortedChannels p).Nodup :=
  (List.mergeSort_perm _ _).nodup_iff.2 (nodup_eraseDups _)

theorem pairwise_sortedChannels (p : Program) : (sortedChannels p).Pairwise (· ≤ ·) := by
  have h := @List.pairwise_mergeSort String (fun a b => decide (a ≤ b))
    (fun a b c hab hbc => decide_eq_true
      (String.le_trans (of_decide_eq_true hab) (of_decide_eq_true hbc)))
    (fun a b => by simpa using String.le_total a b) p.channels
  exact h.imp fun h => of_decide_eq_true h

/-- The nodes at the ends of a channel. -/
def channelEnds? (t : ScopeTree) (p : Program) (channel : String) : Option (String × String) :=
  match p.puts channel, p.gets channel with
  | [put], [get] => (t.channelNode? put).bind fun a => (t.channelNode? get).map fun b => (a, b)
  | _, _ => none

def channelAttributes (channel : String) : String :=
  s!"label=\"{channel}\", style=dashed, color=red, constraint=false"

/-- The line of an edge between the ends of a channel. -/
def channelLine (channel a b : String) : String :=
  let style := "style=dashed, color=red, constraint=false"
  s!"    {a} -> {b} [label=\"{channel}\", {style}];"

theorem channelLines_of_pairs (h : p.Pairs channel) : t.channelLines p channel =
    .ok ((t.channelEnds? p channel).toList.map fun e => channelLine channel e.1 e.2) := by
  obtain ⟨put, get, hput, hget⟩ := h.exists
  simp only [channelLines, channelEnds?, hput, hget]
  cases t.channelNode? put <;> cases t.channelNode? get <;> rfl

theorem channelLines_of_not_pairs (h : ¬ p.Pairs channel) : t.channelLines p channel =
    .error (.channelNotInPairs channel (p.puts channel).length (p.gets channel).length) := by
  rw [channelLines]
  split
  · next put get hput hget => exact absurd ⟨by rw [hput]; rfl, by rw [hget]; rfl⟩ h
  · rfl

theorem exists_dot_iff :
    (∃ text, t.dot p = .ok text) ↔ ∀ channel ∈ p.channels, p.Pairs channel := by
  constructor
  · rintro ⟨text, h⟩ channel hchannel
    obtain ⟨overlay, hoverlay, -⟩ := exists_of_bind_eq_ok h
    obtain ⟨lines, hlines⟩ := exists_of_mapM_eq_ok hoverlay channel (mem_sortedChannels.2 hchannel)
    by_contra hnot
    rw [channelLines_of_not_pairs hnot] at hlines
    cases hlines
  · intro h
    rw [dot, mapM_eq_ok fun channel hchannel =>
      channelLines_of_pairs (h channel (mem_sortedChannels.1 hchannel))]
    exact ⟨_, rfl⟩

theorem least_of_dot_eq_error (h : t.dot p = .error f) : ∃ channel ∈ p.channels,
    ¬ p.Pairs channel ∧ (∀ c ∈ p.channels, ¬ p.Pairs c → channel ≤ c) ∧
      f = .channelNotInPairs channel (p.puts channel).length (p.gets channel).length := by
  rcases error_of_bind_eq_error h with h | ⟨_, -, h⟩
  · obtain ⟨before, channel, after, hsorted, hbefore, herror⟩ := exists_of_mapM_eq_error h
    have hnot : ¬ p.Pairs channel := fun hpairs => by
      rw [channelLines_of_pairs hpairs] at herror
      cases herror
    have hmem : channel ∈ sortedChannels p := hsorted ▸ by simp
    refine ⟨channel, mem_sortedChannels.1 hmem, hnot, fun c hc hcnot => ?_, ?_⟩
    · have hc : c ∈ before ++ channel :: after := hsorted ▸ mem_sortedChannels.2 hc
      have hle := hsorted ▸ pairwise_sortedChannels p
      rcases List.mem_append.1 hc with hc | hc
      · obtain ⟨lines, hlines⟩ := hbefore c hc
        rw [channelLines_of_not_pairs hcnot] at hlines
        cases hlines
      · rcases List.mem_cons.1 hc with rfl | hc
        · exact String.le_refl c
        · exact List.rel_of_pairwise_cons (List.pairwise_append.1 hle).2.1 hc
    · rw [channelLines_of_not_pairs hnot] at herror
      exact (Except.error.inj herror).symm
  · cases h

/-- The failure is about the least channel that is not in pairs. -/
theorem dot_eq_error_iff : t.dot p = .error f ↔ ∃ channel ∈ p.channels,
    ¬ p.Pairs channel ∧ (∀ c ∈ p.channels, ¬ p.Pairs c → channel ≤ c) ∧
      f = .channelNotInPairs channel (p.puts channel).length (p.gets channel).length := by
  refine ⟨least_of_dot_eq_error, ?_⟩
  rintro ⟨channel, hchannel, hnot, hleast, rfl⟩
  cases h : t.dot p with
  | ok text => exact absurd (exists_dot_iff.1 ⟨text, h⟩ channel hchannel) hnot
  | error f =>
    obtain ⟨channel', hchannel', hnot', hleast', rfl⟩ := least_of_dot_eq_error h
    rw [String.le_antisymm (hleast channel' hchannel' hnot') (hleast' channel hchannel hnot)]

/-! ## Numbers of scopes -/

theorem number?_eq_some_iff :
    t.number? path = some i ↔ ∃ s, t.entries[i]? = some (path, s) := by
  rw [number?, List.findIdx?_eq_some_iff_getElem]
  constructor
  · rintro ⟨hi, hpath, -⟩
    refine ⟨t.entries[i].2, ?_⟩
    rw [List.getElem?_eq_getElem hi, ← of_decide_eq_true hpath]
  · rintro ⟨s, hs⟩
    obtain ⟨hi, hentry⟩ := List.getElem?_eq_some_iff.1 hs
    refine ⟨hi, by simp [hentry], fun j hj hpath => ?_⟩
    have hne := List.pairwise_iff_getElem.1 t.nodup_paths j i (by simpa using by omega)
      (by simpa using hi) hj
    rw [List.getElem_map, List.getElem_map, hentry] at hne
    exact hne (of_decide_eq_true hpath)

theorem number?_of_get? (h : t.get? path = some s) :
    ∃ i, t.number? path = some i ∧ t.entries[i]? = some (path, s) := by
  obtain ⟨i, hi⟩ := List.mem_iff_getElem?.1 (mem_entries_iff.2 h)
  exact ⟨i, number?_eq_some_iff.2 ⟨s, hi⟩, hi⟩

theorem get?_of_entry (h : t.entries[i]? = some (path, s)) : t.get? path = some s :=
  mem_entries_iff.1 (List.mem_of_getElem? h)

/-- The node of vertex `v` of the scope at `path`. -/
def node? (t : ScopeTree) (path : Path) (v : Nat) : Option String :=
  (t.number? path).map (nodeName · v)

theorem node?_of_entry (h : t.entries[i]? = some (path, s)) (v : Nat) :
    t.node? path v = some (nodeName i v) := by
  rw [node?, number?_eq_some_iff.2 ⟨s, h⟩]
  rfl

theorem exists_node (h : t.get? path = some s) (v : Nat) : ∃ name, t.node? path v = some name := by
  obtain ⟨i, -, hi⟩ := number?_of_get? h
  exact ⟨_, node?_of_entry hi v⟩

/-- Different vertices have different nodes. -/
theorem node?_inj (h : t.node? path v = some name) (h' : t.node? path' w = some name) :
    path = path' ∧ v = w := by
  obtain ⟨i, hi, rfl⟩ := Option.map_eq_some_iff.1 h
  obtain ⟨j, hj, hname⟩ := Option.map_eq_some_iff.1 h'
  obtain ⟨rfl, rfl⟩ := nodeName_inj hname
  obtain ⟨s, hs⟩ := number?_eq_some_iff.1 hi
  obtain ⟨s', hs'⟩ := number?_eq_some_iff.1 hj
  exact ⟨(Prod.mk.inj (Option.some.inj (hs.symm.trans hs'))).1, rfl⟩

/-! ## What a drawing says -/

/-- The channel's end `o` is at the node. -/
def ChannelAt (t : ScopeTree) (o : OpId) (name : String) : Prop :=
  ∃ path v x, t.vertex? path v = some x ∧ x.op = some o ∧ x.key.kind = .channel ∧
    t.node? path v = some name

/-- What is to be said of the scopes of `p`. -/
inductive Draws (p : Program) (t : ScopeTree) : Statement → Prop
  | vertex {path : Path} {v : Nat} {x : Vertex} {name : String}
      (hx : t.vertex? path v = some x) (hname : t.node? path v = some name) :
      Draws p t (.node name x.dotAttributes)
  | edge {path : Path} {s : Scope} {u v : Nat} {a b : String} (hs : t.get? path = some s)
      (he : (u, v) ∈ s.edges) (ha : t.node? path u = some a) (hb : t.node? path v = some b) :
      Draws p t (.edge a b "")
  | call {path : Path} {v i : Nat} {x : Vertex} {a b : String}
      (hx : t.vertex? path v = some x) (hkind : x.key.kind = .hierarchyCall)
      (hlink : x.link = some (.child i)) (ha : t.node? path v = some a)
      (hb : t.node? (path ++ [i]) Scope.start = some b) :
      Draws p t (.edge a b "style=dotted")
  | channel {channel : String} {put get : OpId} {a b : String} (hput : p.puts channel = [put])
      (hget : p.gets channel = [get]) (ha : t.ChannelAt put a) (hb : t.ChannelAt get b) :
      Draws p t (.edge a b (channelAttributes channel))

/-! ## Lines of clusters -/

theorem oneLine_dotEscaped (h : OneLine name) : OneLine (dotEscaped name) := by
  intro hmem
  simp only [dotEscaped, String.toList_join, List.flatMap_map, List.mem_flatMap] at hmem
  obtain ⟨c, hc, hmem⟩ := hmem
  split at hmem
  · rw [String.toList_append, String.toList_singleton] at hmem
    rcases List.mem_append.1 hmem with hmem | hmem
    · exact absurd hmem (by decide)
    · exact h (List.mem_singleton.1 hmem ▸ hc)
  · rw [String.toList_singleton] at hmem
    exact h (List.mem_singleton.1 hmem ▸ hc)

theorem oneLine_dotAttributes (h : OneLine x.label) : OneLine x.dotAttributes := by
  have hshape : OneLine x.key.kind.shape := by
    cases x.key.kind <;> simp [VertexKind.shape, OneLine]
  have hcolor : OneLine x.key.kind.color := by
    cases x.key.kind <;> simp [VertexKind.color, OneLine]
  show OneLine ("label=\"" ++ dotEscaped x.label ++ "\", shape=" ++ x.key.kind.shape ++
    ", style=filled, fillcolor=" ++ x.key.kind.color)
  simp only [oneLine_append]
  exact ⟨⟨⟨⟨⟨by simp [OneLine], oneLine_dotEscaped h⟩, by simp [OneLine]⟩, hshape⟩,
    by simp [OneLine]⟩, hcolor⟩

/-- What is said of scope number `i` by itself. -/
def clusterStatements (i : Nat) (s : Scope) : List Statement :=
  (s.vertices.mapIdx fun v x => .node (nodeName i v) x.dotAttributes) ++
    s.sortedEdges.map fun e => .edge (nodeName i e.1) (nodeName i e.2) ""

/-- Nothing is said at the head of a cluster. -/
theorem readAs_clusterHead (i n : Nat) (kind : ScopeKind) : ReadAs ["",
    s!"    subgraph cluster{i} \x7b",
    s!"        label=\"{kind.text}{n}\";",
    "        style=rounded;",
    "        color=gray50;"] [] := by
  have hopen : (s!"    subgraph cluster{i} \x7b").toList = List.replicate 4 ' ' ++
      ("subgraph".toList ++ ' ' :: ("cluster".toList ++ (Nat.toDigits 10 i ++ [' ', '\x7b']))) := by
    show ("    subgraph cluster" ++ Nat.repr i ++ " \x7b").toList = _
    simp
  have hlabel : (s!"        label=\"{kind.text}{n}\";").toList = List.replicate 8 ' ' ++
      ("label".toList ++ '=' :: '"' :: (kind.text.toList ++ (Nat.toDigits 10 n ++ ['"', ';']))) := by
    show ("        label=\"" ++ kind.text ++ Nat.repr n ++ "\";").toList = _
    simp
  have hdigits : ∀ n, '\n' ∉ Nat.toDigits 10 n := fun n hmem =>
    absurd (isDigit_toDigits hmem) (by decide)
  have htext : '\n' ∉ kind.text.toList := by
    rcases kind with _ | _ | _ | _ <;> simp [ScopeKind.text, Level.text]
  have hopen : ReadAs [s!"    subgraph cluster{i} \x7b"] [] := by
    refine .skip ?_ (by rw [hopen]; rfl)
    rw [OneLine, hopen]
    simp [hdigits]
  have hlabel : ReadAs [s!"        label=\"{kind.text}{n}\";"] [] := by
    refine .skip ?_ (by rw [hlabel]; rfl)
    rw [OneLine, hlabel]
    simp [hdigits, htext]
  have hblank : ReadAs [""] [] := ⟨by simp [OneLine], rfl⟩
  have hrest : ReadAs ["        style=rounded;", "        color=gray50;"] [] :=
    ⟨by simp [OneLine], rfl⟩
  exact hblank.append (hopen.append (hlabel.append hrest))

theorem readAs_clusterLines (hlabel : ∀ x ∈ s.vertices, OneLine x.label) :
    ReadAs (clusterLines i n s) (clusterStatements i s) := by
  have hvertices : ReadAs
      (s.vertices.mapIdx fun v x => s!"        {nodeName i v} [{x.dotAttributes}];")
      (s.vertices.mapIdx fun v x => .node (nodeName i v) x.dotAttributes) :=
    .mapIdx fun v x hx => readAs_node (isName_nodeName i v)
      (oneLine_dotAttributes (hlabel x (List.mem_of_getElem? hx)))
  have hedges : ReadAs
      (s.sortedEdges.map fun e => s!"        {nodeName i e.1} -> {nodeName i e.2};")
      (s.sortedEdges.map fun e => .edge (nodeName i e.1) (nodeName i e.2) "") :=
    .map fun e _ => readAs_edge (isName_nodeName i e.1) (isName_nodeName i e.2)
  have hclose : ReadAs ["    \x7d"] [] := ⟨by simp [OneLine], rfl⟩
  have h := ((readAs_clusterHead i n s.kind).append (hvertices.append hedges)).append hclose
  rw [List.append_nil, List.nil_append] at h
  exact h

/-- What is said of all scopes by themselves. -/
def ownStatements (t : ScopeTree) : List Statement := (t.toList.mapIdx clusterStatements).flatten

/-! ## Lines between clusters -/

/-- The nodes at the ends of the edge from a call to its child scope. -/
def callEnds? (t : ScopeTree) (i : Nat) (path : Path) (s : Scope) (v : Nat) :
    Option (String × String) :=
  match s.link? v with
  | some (.child k) =>
    (t.number? (path ++ [k])).map fun c => (nodeName i v, nodeName c Scope.start)
  | _ => none

/-- What is said of the calls of scope number `i`. -/
def callStatements (t : ScopeTree) (i : Nat) (path : Path) (s : Scope) : List Statement :=
  (s.indices.filterMap (t.callEnds? i path s)).map fun e => .edge e.1 e.2 "style=dotted"

theorem isName_callEnds (h : t.callEnds? i path s v = some (a, b)) : IsName a ∧ IsName b := by
  unfold callEnds? at h
  split at h
  · obtain ⟨c, -, he⟩ := Option.map_eq_some_iff.1 h
    obtain ⟨rfl, rfl⟩ := Prod.mk.inj he
    exact ⟨isName_nodeName i v, isName_nodeName c _⟩
  · cases h

theorem readAs_callLinesOf :
    ReadAs (t.callLinesOf i path s) (t.callStatements i path s) := by
  have hlines : t.callLinesOf i path s = (s.indices.filterMap (t.callEnds? i path s)).map
      fun e => s!"    {e.1} -> {e.2} [style=dotted];" := by
    rw [callLinesOf, List.map_filterMap]
    congr 1
    funext v
    rw [callEnds?]
    cases s.link? v with
    | none => rfl
    | some link =>
      cases link with
      | child k =>
        show Option.map _ _ = Option.map _ (Option.map _ _)
        rw [Option.map_map]
        rfl
      | parent call => rfl
  rw [hlines]
  refine .map fun e he => ?_
  obtain ⟨v, -, hv⟩ := List.mem_filterMap.1 he
  obtain ⟨ha, hb⟩ := isName_callEnds hv
  refine readAs_edge_attributes ha hb (by simp [OneLine]) ?_
  show ("    " ++ e.1 ++ " -> " ++ e.2 ++ " [style=dotted];").toList = _
  simp

/-- What is said of all calls. -/
def calledStatements (t : ScopeTree) : List Statement :=
  (t.entries.mapIdx fun i e => t.callStatements i e.1 e.2).flatten

theorem getElem?_toList : t.toList[i]? = some s ↔ ∃ path, t.entries[i]? = some (path, s) := by
  rw [toList, List.getElem?_map, Option.map_eq_some_iff]
  constructor
  · rintro ⟨⟨path, s⟩, h, rfl⟩
    exact ⟨path, h⟩
  · rintro ⟨path, h⟩
    exact ⟨_, h, rfl⟩

theorem mem_channelNodesOf : (o, name) ∈ channelNodesOf i s ↔ ∃ v x, s.vertices[v]? = some x ∧
    x.op = some o ∧ x.key.kind = .channel ∧ name = nodeName i v := by
  simp only [channelNodesOf, List.mem_filterMap, Scope.indices, List.mem_range, Scope.vertexKind?,
    Scope.op?]
  constructor
  · rintro ⟨v, -, hv⟩
    cases hx : s.vertices[v]? with
    | none =>
      rw [hx] at hv
      cases hv
    | some x =>
      rw [hx, Option.map_some, Option.bind_some] at hv
      split at hv
      · next op hkind hop =>
        obtain ⟨rfl, rfl⟩ := Prod.mk.inj (Option.some.inj hv)
        exact ⟨v, x, hx, hop, Option.some.inj hkind, rfl⟩
      · cases hv
  · rintro ⟨v, x, hx, hop, hkind, rfl⟩
    refine ⟨v, (List.getElem?_eq_some_iff.1 hx).1, ?_⟩
    rw [hx, Option.map_some, Option.bind_some, hkind, hop]

theorem mem_channelNodes : (o, name) ∈ t.channelNodes ↔ t.ChannelAt o name := by
  simp only [channelNodes, mem_flatten_mapIdx, getElem?_toList, mem_channelNodesOf]
  constructor
  · rintro ⟨i, s, ⟨path, hi⟩, v, x, hx, hop, hkind, rfl⟩
    exact ⟨path, v, x, vertex?_eq_some.2 ⟨s, get?_of_entry hi, hx⟩, hop, hkind, node?_of_entry hi v⟩
  · rintro ⟨path, v, x, hx, hop, hkind, hname⟩
    obtain ⟨s, hs, hx⟩ := vertex?_eq_some.1 hx
    obtain ⟨i, -, hi⟩ := number?_of_get? hs
    rw [node?_of_entry hi, Option.some.injEq] at hname
    exact ⟨i, s, ⟨path, hi⟩, v, x, hx, hop, hkind, hname.symm⟩

theorem channelAt_of_channelNode? (h : t.channelNode? o = some name) : t.ChannelAt o name := by
  obtain ⟨⟨o', name'⟩, hfind, rfl⟩ := Option.map_eq_some_iff.1 h
  obtain rfl : o' = o := by simpa using List.find?_some hfind
  exact mem_channelNodes.1 (List.mem_reverse.1 (List.mem_of_find?_eq_some hfind))

theorem ChannelAt.channelNode? (h : t.ChannelAt o name) : ∃ a, t.channelNode? o = some a := by
  have hmem := List.mem_reverse.2 (mem_channelNodes.2 h)
  cases hfind : t.channelNodes.reverse.find? (·.1 = o) with
  | none => exact absurd (decide_eq_true rfl) (List.find?_eq_none.1 hfind _ hmem)
  | some e => exact ⟨e.2, by rw [Tree.channelNode?, hfind]; rfl⟩

theorem ChannelAt.isName (h : t.ChannelAt o name) : IsName name := by
  obtain ⟨path, v, x, -, -, -, hname⟩ := h
  obtain ⟨i, -, rfl⟩ := Option.map_eq_some_iff.1 hname
  exact isName_nodeName i v

theorem of_channelEnds (h : t.channelEnds? p channel = some (a, b)) : ∃ put get,
    p.puts channel = [put] ∧ p.gets channel = [get] ∧ t.ChannelAt put a ∧ t.ChannelAt get b := by
  unfold channelEnds? at h
  split at h
  · next put get hput hget =>
    obtain ⟨a', ha, h⟩ := Option.bind_eq_some_iff.1 h
    obtain ⟨b', hb, he⟩ := Option.map_eq_some_iff.1 h
    obtain ⟨rfl, rfl⟩ := Prod.mk.inj he
    exact ⟨put, get, hput, hget, channelAt_of_channelNode? ha, channelAt_of_channelNode? hb⟩
  · cases h

theorem readAs_channelLine (hchannel : OneLine channel)
    (h : t.channelEnds? p channel = some (a, b)) :
    ReadAs [channelLine channel a b] [.edge a b (channelAttributes channel)] := by
  obtain ⟨put, get, -, -, ha, hb⟩ := of_channelEnds h
  refine readAs_edge_attributes ha.isName hb.isName ?_ ?_
  · show OneLine ("label=\"" ++ channel ++ "\", style=dashed, color=red, constraint=false")
    simp only [oneLine_append]
    exact ⟨⟨by simp [OneLine], hchannel⟩, by simp [OneLine]⟩
  · show ("    " ++ a ++ " -> " ++ b ++ " [label=\"" ++ channel ++ "\", " ++
      "style=dashed, color=red, constraint=false" ++ "];").toList = ("    " ++ a ++ " -> " ++ b ++
      " [" ++ ("label=\"" ++ channel ++ "\", style=dashed, color=red, constraint=false") ++
      "];").toList
    simp

/-- What is said of all channels. -/
def channelStatements (t : ScopeTree) (p : Program) : List Statement :=
  (sortedChannels p).flatMap fun channel =>
    (t.channelEnds? p channel).toList.map fun e => .edge e.1 e.2 (channelAttributes channel)

/-- What a drawing can be read back from: labels and channels fit in a line, edges are between
vertices and do not come twice, calls and children are paired, and every put and get of the program
has one vertex. -/
structure Drawable (p : Program) (t : ScopeTree) : Prop where
  label : ∀ path v x, t.vertex? path v = some x → OneLine x.label
  start : ∀ path s, t.get? path = some s →
    ∃ x, t.vertex? path Scope.start = some x ∧ x.key.kind = .start
  simple : ∀ path s, t.get? path = some s → s.Simple
  paired : t.Paired
  channel : ∀ channel ∈ p.channels, OneLine channel
  endpoint : ∀ o ∈ p.walk, (p.kind o).channel?.isSome = true → ∃ name, t.ChannelAt o name
  unique : ∀ o a b, t.ChannelAt o a → t.ChannelAt o b → a = b

/-! ## A whole drawing -/

theorem readAs_callLines (t : ScopeTree) : ReadAs t.callLines t.calledStatements :=
  .flatten_mapIdx fun _ _ _ => readAs_callLinesOf

/-- Nothing is said by a heading. -/
theorem readAs_titled {lines : List String} {said : List Statement} {title : String}
    (htitle : OneLine title) (h : ReadAs lines said) : ReadAs (titled title lines) said := by
  have htext : (s!"    // {title}").toList = List.replicate 4 ' ' ++ '/' :: '/' :: ' ' ::
      title.toList := by
    show ("    // " ++ title).toList = _
    simp
  have hblank : ReadAs [""] [] := ⟨by simp [OneLine], rfl⟩
  have hheading : ReadAs [s!"    // {title}"] [] := by
    refine .skip ?_ (by rw [htext]; rfl)
    have htitle : '\n' ∉ title.toList := htitle
    rw [OneLine, htext]
    simpa using htitle
  rw [titled]
  split
  · next hempty =>
    obtain rfl := List.isEmpty_iff.1 hempty
    exact h
  · exact (hblank.append hheading).append h

namespace Drawable

variable {text : String} (h : Drawable p t)
include h

theorem readAs_clusters : ReadAs t.clusters t.ownStatements :=
  .flatten_mapIdx fun i s hs => by
    obtain ⟨path, hi⟩ := getElem?_toList.1 hs
    refine readAs_clusterLines fun x hx => ?_
    obtain ⟨v, hv⟩ := List.mem_iff_getElem?.1 hx
    exact h.label path v x (vertex?_eq_some.2 ⟨s, get?_of_entry hi, hv⟩)

theorem readAs_channels : ReadAs
    ((sortedChannels p).map fun channel =>
      (t.channelEnds? p channel).toList.map fun e => channelLine channel e.1 e.2).flatten
    (t.channelStatements p) := by
  rw [← List.flatMap_def]
  refine .flatMap fun channel hchannel => .map fun e he => ?_
  exact readAs_channelLine (h.channel channel (mem_sortedChannels.1 hchannel)) (by simpa using he)

/-- The statements of a drawing, in order. -/
theorem statements_eq (hok : t.dot p = .ok text) :
    statements text = t.ownStatements ++ t.calledStatements ++ t.channelStatements p := by
  have hpairs := exists_dot_iff.1 ⟨text, hok⟩
  rw [dot, mapM_eq_ok fun channel hchannel =>
    channelLines_of_pairs (hpairs channel (mem_sortedChannels.1 hchannel))] at hok
  obtain rfl := Except.ok.inj hok
  have hhead : ReadAs ["digraph depcanon \x7b", "    rankdir=LR;",
      "    node [fontname=\"Helvetica\", fontsize=10];",
      "    edge [fontname=\"Helvetica\", fontsize=9];"] [] := ⟨by simp [OneLine], rfl⟩
  have hcalls : ReadAs (titled "Hierarchy calls" t.callLines) t.calledStatements :=
    readAs_titled (by simp [OneLine]) (readAs_callLines t)
  have htitle : ReadAs (if (sortedChannels p).isEmpty then [] else ["", "    // Channels"]) [] := by
    split
    · exact .nil
    · exact ⟨by simp [OneLine], rfl⟩
  have hclose : ReadAs ["\x7d"] [] := ⟨by simp [OneLine], rfl⟩
  have hall := ((((hhead.append h.readAs_clusters).append hcalls).append htitle).append
    h.readAs_channels).append hclose
  rw [List.nil_append, List.append_nil, List.append_nil] at hall
  exact hall.statements

end Drawable

/-! ## Which statements -/

theorem mem_clusterStatements : st ∈ clusterStatements i s ↔
    (∃ v x, s.vertices[v]? = some x ∧ st = .node (nodeName i v) x.dotAttributes) ∨
      ∃ u v, (u, v) ∈ s.edges ∧ st = .edge (nodeName i u) (nodeName i v) "" := by
  simp only [clusterStatements, Scope.sortedEdges, List.mem_append, List.mem_mapIdx, List.mem_map,
    List.mem_mergeSort, Prod.exists]
  refine or_congr ⟨?_, ?_⟩ (by simp only [eq_comm])
  · rintro ⟨v, hv, rfl⟩
    exact ⟨v, _, List.getElem?_eq_getElem hv, rfl⟩
  · rintro ⟨v, x, hx, rfl⟩
    obtain ⟨hv, rfl⟩ := List.getElem?_eq_some_iff.1 hx
    exact ⟨v, hv, rfl⟩

theorem mem_callStatements : st ∈ t.callStatements i path s ↔ ∃ v k c,
    s.link? v = some (.child k) ∧ t.number? (path ++ [k]) = some c ∧
      st = .edge (nodeName i v) (nodeName c Scope.start) "style=dotted" := by
  simp only [callStatements, List.mem_map, List.mem_filterMap, Scope.indices, List.mem_range]
  constructor
  · rintro ⟨e, ⟨v, -, he⟩, rfl⟩
    unfold callEnds? at he
    split at he
    · next k hlink =>
      obtain ⟨c, hc, rfl⟩ := Option.map_eq_some_iff.1 he
      exact ⟨v, k, c, hlink, hc, rfl⟩
    · cases he
  · rintro ⟨v, k, c, hlink, hc, rfl⟩
    obtain ⟨x, hx, -⟩ := Option.bind_eq_some_iff.1 hlink
    refine ⟨(nodeName i v, nodeName c Scope.start),
      ⟨v, (List.getElem?_eq_some_iff.1 hx).1, ?_⟩, rfl⟩
    rw [callEnds?, hlink]
    exact congrArg (Option.map _) hc

theorem draws_of_mem_ownStatements (h : st ∈ t.ownStatements) : t.Draws p st := by
  obtain ⟨i, s, hs, hst⟩ := mem_flatten_mapIdx.1 h
  obtain ⟨path, hi⟩ := getElem?_toList.1 hs
  have hget := get?_of_entry hi
  rcases mem_clusterStatements.1 hst with ⟨v, x, hx, rfl⟩ | ⟨u, v, he, rfl⟩
  · exact .vertex (vertex?_eq_some.2 ⟨s, hget, hx⟩) (node?_of_entry hi v)
  · exact .edge hget he (node?_of_entry hi u) (node?_of_entry hi v)

/-- Only calls are linked to children, each to the one that it calls. -/
theorem Paired.of_link (ht : t.Paired) (hx : t.vertex? path v = some x)
    (hlink : x.link = some (.child i)) : x.key.kind = .hierarchyCall ∧
      ∃ u, t.get? (path ++ [i]) = some u ∧ u.call = x.op := by
  obtain ⟨s, hs, hx⟩ := vertex?_eq_some.1 hx
  obtain ⟨child, -, link⟩ := ht path s hs
  have hlink : s.link? v = some (.child i) := by rw [Scope.link?, hx, Option.bind_some, hlink]
  obtain ⟨u, hu⟩ := Option.isSome_iff_exists.1 (link v i hlink)
  obtain ⟨w, o, e, honly, hkind, hop, hcall, -⟩ := child i u hu
  obtain rfl := (honly v).1 hlink
  rw [Scope.vertexKind?, hx] at hkind
  rw [Scope.op?, hx] at hop
  exact ⟨Option.some.inj hkind, u, hu, hcall.trans hop.symm⟩

theorem draws_of_mem_calledStatements (ht : t.Paired) (h : st ∈ t.calledStatements) :
    t.Draws p st := by
  obtain ⟨i, ⟨path, s⟩, hi, hst⟩ := mem_flatten_mapIdx.1 h
  obtain ⟨v, k, c, hlink, hc, rfl⟩ := mem_callStatements.1 hst
  obtain ⟨x, hx, hlink⟩ := Option.bind_eq_some_iff.1 hlink
  have hx := vertex?_eq_some.2 ⟨s, get?_of_entry hi, hx⟩
  refine .call hx (ht.of_link hx hlink).1 hlink (node?_of_entry hi v) ?_
  rw [node?, hc]
  rfl

theorem mem_channelStatements : st ∈ t.channelStatements p ↔ ∃ channel a b,
    t.channelEnds? p channel = some (a, b) ∧ st = .edge a b (channelAttributes channel) := by
  simp only [channelStatements, List.mem_flatMap, List.mem_map, Option.mem_toList, Prod.exists,
    mem_sortedChannels]
  constructor
  · rintro ⟨channel, -, a, b, he, rfl⟩
    exact ⟨channel, a, b, he, rfl⟩
  · rintro ⟨channel, a, b, he, rfl⟩
    obtain ⟨put, get, hput, -⟩ := of_channelEnds he
    exact ⟨channel, Program.mem_channels_iff.2 (Or.inl (by simp [hput])), a, b, he, rfl⟩

theorem draws_of_mem_channelStatements (h : st ∈ t.channelStatements p) : t.Draws p st := by
  obtain ⟨channel, a, b, he, rfl⟩ := mem_channelStatements.1 h
  obtain ⟨put, get, hput, hget, ha, hb⟩ := of_channelEnds he
  exact .channel hput hget ha hb

theorem Draws.mem (hunique : ∀ o a b, t.ChannelAt o a → t.ChannelAt o b → a = b)
    (h : t.Draws p st) :
    st ∈ t.ownStatements ++ t.calledStatements ++ t.channelStatements p := by
  cases h with
  | @vertex path v x name hx hname =>
    obtain ⟨s, hs, hx⟩ := vertex?_eq_some.1 hx
    obtain ⟨i, -, hi⟩ := number?_of_get? hs
    rw [node?_of_entry hi, Option.some.injEq] at hname
    refine List.mem_append_left _ (List.mem_append_left _ (mem_flatten_mapIdx.2 ?_))
    exact ⟨i, s, getElem?_toList.2 ⟨path, hi⟩,
      mem_clusterStatements.2 (Or.inl ⟨v, x, hx, hname ▸ rfl⟩)⟩
  | @edge path s u v a b hs he ha hb =>
    obtain ⟨i, -, hi⟩ := number?_of_get? hs
    rw [node?_of_entry hi, Option.some.injEq] at ha hb
    refine List.mem_append_left _ (List.mem_append_left _ (mem_flatten_mapIdx.2 ?_))
    exact ⟨i, s, getElem?_toList.2 ⟨path, hi⟩,
      mem_clusterStatements.2 (Or.inr ⟨u, v, he, ha ▸ hb ▸ rfl⟩)⟩
  | @call path v k x a b hx _ hlink ha hb =>
    obtain ⟨s, hs, hx⟩ := vertex?_eq_some.1 hx
    obtain ⟨i, -, hi⟩ := number?_of_get? hs
    rw [node?_of_entry hi, Option.some.injEq] at ha
    obtain ⟨c, hc, hb⟩ := Option.map_eq_some_iff.1 hb
    refine List.mem_append_left _ (List.mem_append_right _ (mem_flatten_mapIdx.2 ?_))
    refine ⟨i, (path, s), hi, mem_callStatements.2 ⟨v, k, c, ?_, hc, ha ▸ hb ▸ rfl⟩⟩
    rw [Scope.link?, hx, Option.bind_some, hlink]
  | @channel channel put get a b hput hget ha hb =>
    obtain ⟨a', ha'⟩ := ha.channelNode?
    obtain ⟨b', hb'⟩ := hb.channelNode?
    obtain rfl := hunique put a a' ha (channelAt_of_channelNode? ha')
    obtain rfl := hunique get b b' hb (channelAt_of_channelNode? hb')
    refine List.mem_append_right _ (mem_channelStatements.2 ⟨channel, a, b, ?_, rfl⟩)
    simp [channelEnds?, hput, hget, ha', hb']

/-! ## Each statement once -/

theorem toList_channelAttributes (channel : String) :
    (channelAttributes channel).toList = "label=\"".toList ++
      (channel.toList ++ "\", style=dashed, color=red, constraint=false".toList) := by
  show ("label=\"" ++ channel ++ "\", style=dashed, color=red, constraint=false").toList = _
  rw [String.toList_append, String.toList_append, List.append_assoc]

theorem channelAttributes_inj {channel' : String}
    (h : channelAttributes channel = channelAttributes channel') : channel = channel' := by
  have h := congrArg String.toList h
  rw [toList_channelAttributes, toList_channelAttributes] at h
  exact String.toList_inj.1 (List.append_cancel_right (List.append_cancel_left h))

/-- Edges of channels have a label, others have none. -/
theorem channelAttributes_ne {style : String} (h : style = "" ∨ style = "style=dotted") :
    channelAttributes channel ≠ style := by
  intro heq
  have heq := congrArg (fun style => style.toList.head?) heq
  simp only [toList_channelAttributes] at heq
  rcases h with rfl | rfl <;> simp at heq

/-- The three parts of a drawing are told apart by the attributes of edges. -/
theorem style?_of_mem_ownStatements (h : st ∈ t.ownStatements) :
    st.style? = none ∨ st.style? = some "" := by
  obtain ⟨i, s, -, hst⟩ := mem_flatten_mapIdx.1 h
  rcases mem_clusterStatements.1 hst with ⟨v, x, -, rfl⟩ | ⟨u, v, -, rfl⟩
  · exact Or.inl rfl
  · exact Or.inr rfl

theorem style?_of_mem_calledStatements (h : st ∈ t.calledStatements) :
    st.style? = some "style=dotted" := by
  obtain ⟨i, e, -, hst⟩ := mem_flatten_mapIdx.1 h
  obtain ⟨v, k, c, -, -, rfl⟩ := mem_callStatements.1 hst
  rfl

theorem style?_of_mem_channelStatements (h : st ∈ t.channelStatements p) :
    ∃ channel, st.style? = some (channelAttributes channel) := by
  obtain ⟨channel, a, b, -, rfl⟩ := mem_channelStatements.1 h
  exact ⟨channel, rfl⟩

theorem nodup_clusterStatements (hs : s.edges.Nodup) : (clusterStatements i s).Nodup := by
  refine List.nodup_append'.2 ⟨?_, ?_, ?_⟩
  · refine List.pairwise_iff_getElem.2 fun v w hv hw hvw heq => ?_
    rw [List.getElem_mapIdx, List.getElem_mapIdx] at heq
    exact Nat.ne_of_lt hvw (nodeName_inj (Statement.node.inj heq).1).2
  · refine List.Nodup.map (fun e e' heq => ?_) ((List.mergeSort_perm _ _).nodup_iff.2 hs)
    obtain ⟨hsource, htarget, -⟩ := Statement.edge.inj heq
    exact Prod.ext (nodeName_inj hsource).2 (nodeName_inj htarget).2
  · intro st hnode hedge
    obtain ⟨v, hv, rfl⟩ := List.mem_mapIdx.1 hnode
    obtain ⟨e, -, he⟩ := List.mem_map.1 hedge
    cases he

theorem nodup_ownStatements (h : ∀ path s, t.get? path = some s → s.Simple) :
    t.ownStatements.Nodup := by
  refine nodup_flatten_mapIdx (fun i s hs => ?_) fun i j s s' st hi hj => ?_
  · obtain ⟨path, hi⟩ := getElem?_toList.1 hs
    exact nodup_clusterStatements (h path s (get?_of_entry hi)).nodup
  · have hfirst : ∀ {i s}, st ∈ clusterStatements i s → ∃ v, st.first = nodeName i v := by
      intro i s hst
      rcases mem_clusterStatements.1 hst with ⟨v, x, -, rfl⟩ | ⟨u, v, -, rfl⟩
      · exact ⟨v, rfl⟩
      · exact ⟨u, rfl⟩
    obtain ⟨v, hv⟩ := hfirst hi
    obtain ⟨w, hw⟩ := hfirst hj
    exact (nodeName_inj (hv.symm.trans hw)).1

theorem nodup_calledStatements (t : ScopeTree) : t.calledStatements.Nodup := by
  refine nodup_flatten_mapIdx (fun i e _ => ?_) fun i j e e' st hi hj => ?_
  · have hedge : Function.Injective fun e : String × String =>
        Statement.edge e.1 e.2 "style=dotted" := fun e e' heq =>
      Prod.ext (Statement.edge.inj heq).1 (Statement.edge.inj heq).2.1
    refine List.Nodup.map hedge (List.Nodup.filterMap (fun v w b hv hw => ?_) List.nodup_range)
    have hsource : ∀ {v}, b ∈ t.callEnds? i e.1 e.2 v → b.1 = nodeName i v := by
      intro v hb
      unfold callEnds? at hb
      split at hb
      · obtain ⟨c, -, rfl⟩ := Option.map_eq_some_iff.1 hb
        rfl
      · cases hb
    exact (nodeName_inj ((hsource hv).symm.trans (hsource hw))).2
  · obtain ⟨v, _, _, -, -, rfl⟩ := mem_callStatements.1 hi
    obtain ⟨w, _, _, -, -, heq⟩ := mem_callStatements.1 hj
    exact (nodeName_inj (Statement.edge.inj heq).1).1

theorem nodup_channelStatements (p : Program) (t : ScopeTree) :
    (t.channelStatements p).Nodup := by
  refine List.nodup_flatMap.2 ⟨fun channel _ => ?_, ?_⟩
  · cases t.channelEnds? p channel <;> simp
  · refine (nodup_sortedChannels p).imp fun {channel channel'} hne st hst hst' => hne ?_
    obtain ⟨e, -, rfl⟩ := List.mem_map.1 hst
    obtain ⟨e', -, heq⟩ := List.mem_map.1 hst'
    exact channelAttributes_inj (Statement.edge.inj heq).2.2.symm

/-- What the drawing says, each statement once. -/
theorem Drawable.statements (h : Drawable p t) {text : String} (hok : t.dot p = .ok text) :
    (AsyncOrder.statements text).Nodup ∧
      ∀ st, st ∈ AsyncOrder.statements text ↔ t.Draws p st := by
  rw [h.statements_eq hok]
  refine ⟨?_, fun st => ⟨fun hst => ?_, Draws.mem h.unique⟩⟩
  · refine List.nodup_append'.2 ⟨List.nodup_append'.2 ⟨nodup_ownStatements h.simple,
      nodup_calledStatements t, ?_⟩, nodup_channelStatements p t, ?_⟩
    · intro st hown hcalled
      have hdotted := style?_of_mem_calledStatements hcalled
      rcases style?_of_mem_ownStatements hown with hstyle | hstyle <;> simp [hstyle] at hdotted
    · intro st hst hchannel
      obtain ⟨channel, hdashed⟩ := style?_of_mem_channelStatements hchannel
      rcases List.mem_append.1 hst with hown | hcalled
      · rcases style?_of_mem_ownStatements hown with hstyle | hstyle
        · simp [hstyle] at hdashed
        · exact channelAttributes_ne (Or.inl rfl)
            (Option.some.inj (hdashed.symm.trans hstyle))
      · exact channelAttributes_ne (Or.inr rfl) (Option.some.inj
          (hdashed.symm.trans (style?_of_mem_calledStatements hcalled)))
  · rcases List.mem_append.1 hst with hst | hst
    · rcases List.mem_append.1 hst with hst | hst
      · exact draws_of_mem_ownStatements hst
      · exact draws_of_mem_calledStatements h.paired hst
    · exact draws_of_mem_channelStatements hst

/-- The text says of the scopes of `p` what is to be said, and all of it once: every vertex is
declared under a name that no other has, every edge of a scope is there between its vertices, one
dotted edge leads from every call to the start of the scope that it calls, and one dashed edge
joins the put and the get of every channel. -/
structure Shows (p : Program) (t : ScopeTree) (text : String) : Prop where
  said : ∀ st, st ∈ statements text ↔ t.Draws p st
  once : (statements text).Nodup
  vertex : ∀ path v x, t.vertex? path v = some x → ∃ name, t.node? path v = some name ∧
    (∀ path' w, t.node? path' w = some name → path' = path ∧ w = v) ∧
    (statements text).filter (·.declares name) = [.node name x.dotAttributes]
  edge : ∀ path s u v, t.get? path = some s → (u, v) ∈ s.edges → ∃ x y a b,
    t.vertex? path u = some x ∧ t.vertex? path v = some y ∧ t.node? path u = some a ∧
    t.node? path v = some b ∧ (statements text).count (.edge a b "") = 1
  call : ∀ path v x, t.vertex? path v = some x → x.key.kind = .hierarchyCall → ∃ i s y a b,
    x.link = some (.child i) ∧ t.get? (path ++ [i]) = some s ∧ s.call = x.op ∧
    t.vertex? (path ++ [i]) Scope.start = some y ∧ y.key.kind = .start ∧
    t.node? path v = some a ∧ t.node? (path ++ [i]) Scope.start = some b ∧
    (statements text).filter (fun st => st.first = a ∧ st.style? = some "style=dotted") =
      [.edge a b "style=dotted"]
  channel : ∀ channel ∈ p.channels, ∃ put get a b, p.puts channel = [put] ∧
    p.gets channel = [get] ∧ t.ChannelAt put a ∧ t.ChannelAt get b ∧
    (statements text).filter (·.style? = some (channelAttributes channel)) =
      [.edge a b (channelAttributes channel)]
  endpoint : ∀ o a b, t.ChannelAt o a → t.ChannelAt o b → a = b

theorem exists_vertex (h : t.get? path = some s) (hv : v < s.size) :
    ∃ x, t.vertex? path v = some x :=
  ⟨_, vertex?_eq_some.2 ⟨s, h, List.getElem?_eq_getElem hv⟩⟩

/-- A call is linked to a child that begins with its start. -/
theorem Drawable.exists_callee (h : Drawable p t) (hx : t.vertex? path v = some x)
    (hkind : x.key.kind = .hierarchyCall) : ∃ i s y, x.link = some (.child i) ∧
      t.get? (path ++ [i]) = some s ∧ s.call = x.op ∧
      t.vertex? (path ++ [i]) Scope.start = some y ∧ y.key.kind = .start := by
  obtain ⟨s, hs, hget⟩ := vertex?_eq_some.1 hx
  obtain ⟨-, call, -⟩ := h.paired path s hs
  obtain ⟨i, -, hlink⟩ := call v (by rw [Scope.vertexKind?, hget, Option.map_some, hkind])
  rw [Scope.link?, hget, Option.bind_some] at hlink
  obtain ⟨-, u, hu, hcall⟩ := h.paired.of_link hx hlink
  obtain ⟨y, hy, hstart⟩ := h.start _ u hu
  exact ⟨i, u, y, hlink, hu, hcall, hy, hstart⟩

/-- Both ends of a channel that is in pairs are drawn. -/
theorem Drawable.exists_ends (h : Drawable p t) (hpairs : p.Pairs channel) : ∃ put get a b,
    p.puts channel = [put] ∧ p.gets channel = [get] ∧ t.ChannelAt put a ∧ t.ChannelAt get b := by
  obtain ⟨put, get, hput, hget⟩ := hpairs.exists
  have hputs : put ∈ p.puts channel := hput ▸ List.mem_singleton_self put
  have hgets : get ∈ p.gets channel := hget ▸ List.mem_singleton_self get
  obtain ⟨hputs, hkind⟩ := List.mem_filter.1 hputs
  obtain ⟨hgets, hkind'⟩ := List.mem_filter.1 hgets
  obtain ⟨a, ha⟩ := h.endpoint put hputs (by rw [of_decide_eq_true hkind]; rfl)
  obtain ⟨b, hb⟩ := h.endpoint get hgets (by rw [of_decide_eq_true hkind']; rfl)
  exact ⟨put, get, a, b, hput, hget, ha, hb⟩

/-! ## Statements by what they are about -/

theorem Draws.eq_of_declares (h : t.Draws p st) (hst : st.declares name = true)
    (hx : t.vertex? path v = some x) (hname : t.node? path v = some name) :
    st = .node name x.dotAttributes := by
  cases h with
  | vertex hy hname' =>
    obtain rfl := of_decide_eq_true hst
    obtain ⟨rfl, rfl⟩ := node?_inj hname' hname
    rw [Option.some.inj (hx.symm.trans hy)]
  | edge | call | channel => cases hst

theorem Draws.eq_of_dotted (h : t.Draws p st) (hfirst : st.first = a)
    (hstyle : st.style? = some "style=dotted") (hx : t.vertex? path v = some x)
    (hlink : x.link = some (.child i)) (ha : t.node? path v = some a)
    (hb : t.node? (path ++ [i]) Scope.start = some b) : st = .edge a b "style=dotted" := by
  cases h with
  | vertex => cases hstyle
  | edge => simp [style?] at hstyle
  | call hx' _ hlink' ha' hb' =>
    obtain rfl : _ = a := hfirst
    obtain ⟨rfl, rfl⟩ := node?_inj ha' ha
    obtain rfl := Option.some.inj (hx.symm.trans hx')
    obtain rfl := Link.child.inj (Option.some.inj (hlink.symm.trans hlink'))
    rw [Option.some.inj (hb.symm.trans hb')]
    rfl
  | channel => exact absurd (Option.some.inj hstyle) (channelAttributes_ne (Or.inr rfl))

theorem Drawable.eq_of_dashed (h : Drawable p t) (hst : t.Draws p st)
    (hstyle : st.style? = some (channelAttributes channel)) {put get : OpId}
    (hput : p.puts channel = [put]) (hget : p.gets channel = [get]) (ha : t.ChannelAt put a)
    (hb : t.ChannelAt get b) : st = .edge a b (channelAttributes channel) := by
  cases hst with
  | vertex => cases hstyle
  | edge => exact absurd (Option.some.inj hstyle).symm (channelAttributes_ne (Or.inl rfl))
  | call => exact absurd (Option.some.inj hstyle).symm (channelAttributes_ne (Or.inr rfl))
  | channel hput' hget' ha' hb' =>
    obtain rfl := channelAttributes_inj (Option.some.inj hstyle)
    obtain rfl : _ = put := by simpa [hput] using hput'.symm
    obtain rfl : _ = get := by simpa [hget] using hget'.symm
    rw [h.unique _ _ _ ha ha', h.unique _ _ _ hb hb']

theorem Drawable.shows (h : Drawable p t) {text : String} (hok : t.dot p = .ok text) :
    t.Shows p text := by
  obtain ⟨hnodup, hsaid⟩ := h.statements hok
  have honly : ∀ {st} {f : Statement → Bool}, t.Draws p st → f st = true →
      (∀ st', t.Draws p st' → f st' = true → st' = st) →
      (AsyncOrder.statements text).filter f = [st] :=
    fun hst hf hunique => filter_eq_singleton hnodup ((hsaid _).2 hst) hf fun st' hst' =>
      hunique st' ((hsaid st').1 hst')
  constructor
  case said => exact hsaid
  case once => exact hnodup
  case vertex =>
    intro path v x hx
    obtain ⟨s, hs, -⟩ := vertex?_eq_some.1 hx
    obtain ⟨name, hname⟩ := exists_node hs v
    refine ⟨name, hname, fun path' w hw => node?_inj hw hname, ?_⟩
    exact honly (.vertex hx hname) (decide_eq_true rfl) fun st hst hdeclares =>
      hst.eq_of_declares hdeclares hx hname
  case edge =>
    intro path s u v hs he
    obtain ⟨hu, hv⟩ := (h.simple path s hs).bounded u v he
    obtain ⟨x, hx⟩ := exists_vertex hs hu
    obtain ⟨y, hy⟩ := exists_vertex hs hv
    obtain ⟨a, ha⟩ := exists_node hs u
    obtain ⟨b, hb⟩ := exists_node hs v
    exact ⟨x, y, a, b, hx, hy, ha, hb,
      List.count_eq_one_of_mem hnodup ((hsaid _).2 (.edge hs he ha hb))⟩
  case call =>
    intro path v x hx hkind
    obtain ⟨s, hs, -⟩ := vertex?_eq_some.1 hx
    obtain ⟨i, u, y, hlink, hu, hcall, hy, hstart⟩ := h.exists_callee hx hkind
    obtain ⟨a, ha⟩ := exists_node hs v
    obtain ⟨b, hb⟩ := exists_node hu Scope.start
    refine ⟨i, u, y, a, b, hlink, hu, hcall, hy, hstart, ha, hb, ?_⟩
    refine honly (.call hx hkind hlink ha hb) (decide_eq_true ⟨rfl, rfl⟩) fun st hst hdotted => ?_
    obtain ⟨hfirst, hstyle⟩ := of_decide_eq_true hdotted
    exact hst.eq_of_dotted hfirst hstyle hx hlink ha hb
  case channel =>
    intro channel hchannel
    obtain ⟨put, get, a, b, hput, hget, ha, hb⟩ :=
      h.exists_ends (exists_dot_iff.1 ⟨text, hok⟩ channel hchannel)
    refine ⟨put, get, a, b, hput, hget, ha, hb, ?_⟩
    exact honly (.channel hput hget ha hb) (decide_eq_true rfl) fun st hst hdashed =>
      h.eq_of_dashed hst (of_decide_eq_true hdashed) hput hget ha hb
  case endpoint => exact h.unique

end Tree

end AsyncOrder
