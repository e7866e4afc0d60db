import Blackadder.Rendezvous.State

namespace Blackadder.Rendezvous

variable [IterationOrder]

/-! What the handlers are given, read from the request; each takes what it uses. -/

variable (fuel : Nat) (publisher subscriber : NodeID) (id prefixID : ID)
variable (strategy : Strategy) (updateOnly : Bool)
variable (role : Role) (host : NodeID) (known : Bool) (sc pub : Ptr) (subscribers : HashSet NodeID)

/-- The second rendezvous of `unpublish_info`, unless the first root scope is known. -/
def rendezvousAgain (rootScopes : HashSet ID) (pub : Ptr) (updateOnly : Bool) : RV Unit := do
  let known ← firstIsKnown rootScopes
  if known then pure () else rendezvousAll pub updateOnly

def unpublishInfo : RV RvReturnCode := do
  let fullID := prefixID ++ id
  let found ← Program.read (·.pubIndex.get fullID)
  let fatherScope ← Program.read (·.scopeIndex.get prefixID)
  match found with
  | none => pure .infoDoesNotExist
  | some pub =>
    let father ← Program.expect .missing fatherScope
    let fatherNode ← deref father
    if fatherNode.strategy = strategy then
      let item ← deref pub
      let rootScopes := item.getRootScopes ∅
      unregister .item .publisher pub fullID publisher do
        let item ← deref pub
        let others ← checkForOtherPubSub pub father
        if item.fatherScopes.size = 1 then
          if others then
            rendezvousAgain rootScopes pub updateOnly
          else
            deleteUnder .item pub father
        else
          let _ ← if others then pure () else deleteBranch .item pub father
          rendezvousAgain rootScopes pub updateOnly
    else
      pure .strategyMismatch

/-- The one-shot removal: unpublish all publishers of `pub` under `prefixID`. -/
def unpublishAll (id prefixID : ID) (strategy : Strategy) (updateOnly : Bool) :
    RV Unit := do
  let item ← deref pub
  forM (item.getPublishers ∅).keys fun publisher => do
    let _ ← unpublishInfo publisher id prefixID strategy updateOnly

/-- The last fragment of the item's first identifier is read anew for every publisher. -/
def unpublishAllUnder (prefixID : ID) (strategy : Strategy) (updateOnly : Bool) :
    RV Unit := do
  let item ← deref pub
  forM (item.getPublishers ∅).keys fun publisher => do
    let item ← deref pub
    let first ← firstID item
    let _ ← unpublishInfo publisher (lastFragment first) prefixID strategy updateOnly

/-- The case `NAMESPACE_IP` of `advertise_info` and `readvertise_info`. -/
def publishOnce (id prefixID : ID)
    (strategy : Strategy) (updateOnly : Bool) : RV Unit := do
  rendezvous pub subscribers updateOnly
  if 0 < subscribers.size then unpublishAll pub id prefixID strategy updateOnly else pure ()

/-- `advertise_info` and `readvertise_info`; `NAMESPACE_HTTP` falls through to `NAMESPACE_IP`. -/
def matchPublication (id prefixID : ID)
    (strategy : Strategy) (updateOnly : Bool) : RV Unit := do
  let item ← deref pub
  let ns ← getRootNamespace item
  if ns = namespaceHttp then
    let subscribers ←
      if subscribers.size = 0 then getHTTPgw subscribers else pure subscribers
    publishOnce pub subscribers id prefixID strategy updateOnly
  else if ns = namespaceIp then
    publishOnce pub subscribers id prefixID strategy updateOnly
  else if ns = namespaceUnknown then
    rendezvous pub subscribers updateOnly
  else
    pure ()

/-- `publish_root_scope` and `subscribe_root_scope` up to the case of an existing scope. -/
def enterRootScope (id : ID) (strategy : Strategy)
    (onExisting : Ptr → RV Unit) : RV RvReturnCode := do
  let found ← Program.read (·.scopeIndex.get id)
  match found with
  | none =>
    let sc ← newScope strategy none
    Program.update (·.modifyIndex (·.set id sc) .scope)
    register .scope role sc id host (pure ())
  | some sc =>
    let scope ← deref sc
    if scope.strategy = strategy then
      register .scope role sc id host (onExisting sc)
    else
      pure .strategyMismatch

/-- `publish_inner_scope` and `subscribe_inner_scope` up to the case of an existing scope. -/
def enterInnerScope (fuel : Nat) (role : Role) (host : NodeID) (id prefixID : ID)
    (strategy : Strategy) (onExisting : Ptr → RV Unit) : RV RvReturnCode := do
  let fullID := prefixID ++ id
  let pubIndex ← Program.read (·.pubIndex)
  if fullID ∈ pubIndex then
    pure .infoItemWithSameId
  else
    let scopeIndex ← Program.read (·.scopeIndex)
    match scopeIndex.get prefixID with
    | none => pure .fatherDoesNotExist
    | some father =>
      match scopeIndex.get fullID with
      | none =>
        let fatherScope ← deref father
        if fatherScope.strategy = strategy then
          let sc ← newScope strategy (some father)
          recursivelyUpdateIDs fuel sc (lastFragment fullID)
          register .scope role sc fullID host do
            let fatherScope ← deref father
            let scope ← deref sc
            notifySubscribers .scopePublished scope.getIDs scope.strategy
              (fatherScope.getSubscribers ∅)
        else
          pure .strategyMismatch
      | some sc =>
        let scope ← deref sc
        if scope.strategy = strategy then
          register .scope role sc fullID host (onExisting sc)
        else
          pure .strategyMismatch

def publishRootScope : RV RvReturnCode :=
  enterRootScope .publisher publisher id strategy fun _ => pure ()

def publishInnerScope : RV RvReturnCode :=
  enterInnerScope fuel .publisher publisher id prefixID strategy fun _ => pure ()

def republishInnerScope : RV RvReturnCode := do
  let suffixID := lastFragment id
  let fullID := prefixID ++ suffixID
  let existingPrefixID := id.take (id.length - 1)
  let pubIndex ← Program.read (·.pubIndex)
  if fullID ∈ pubIndex then
    pure .infoItemWithSameId
  else
    let scopeIndex ← Program.read (·.scopeIndex)
    match scopeIndex.get prefixID with
    | none => pure .fatherDoesNotExist
    | some father =>
      match scopeIndex.get id with
      | none => pure .scopeDoesNotExist
      | some existing =>
        match scopeIndex.get fullID with
        | none =>
          let fatherScope ← deref father
          if fatherScope.strategy = strategy then
            assign existing fun node =>
              { node with fatherScopes := node.fatherScopes.insert father }
            assign father (·.modifyChildren (·.insert existing) .scope)
            recursivelyUpdateIDs fuel existing suffixID
            register .scope .publisher existing fullID publisher do
              let fatherScope ← deref father
              let scope ← deref existing
              notifySubscribers .scopePublished
                (scope.getIDs.erase (existingPrefixID ++ suffixID)) scope.strategy
                (fatherScope.getSubscribers ∅)
          else
            pure .strategyMismatch
        | some equivalent =>
          let scope ← deref equivalent
          if scope.strategy = strategy then
            register .scope .publisher equivalent fullID publisher (pure ())
          else
            pure .strategyMismatch

def publishScope : RV RvReturnCode :=
  if prefixID.length = 0 ∧ id.length = 1 then
    publishRootScope publisher id strategy
  else if 0 < prefixID.length ∧ id.length = 1 then
    publishInnerScope fuel publisher id prefixID strategy
  else if 0 < prefixID.length ∧ 1 < id.length then
    republishInnerScope fuel publisher id prefixID strategy
  else
    pure .wrongIds

/-- `advertise_info` and `subscribe_info` up to what follows once the host is added. -/
def enterInfo (id prefixID : ID) (strategy : Strategy)
    (onNew : Ptr → Ptr → RV Unit) (onExisting : Ptr → RV Unit) : RV RvReturnCode := do
  let fullID := prefixID ++ id
  let scopeIndex ← Program.read (·.scopeIndex)
  match scopeIndex.get prefixID with
  | none => pure .fatherDoesNotExist
  | some father =>
    let found ← Program.read (·.pubIndex.get fullID)
    let fatherScope ← deref father
    match found with
    | none =>
      if fullID ∈ scopeIndex then
        pure .scopeWithSameId
      else if fatherScope.strategy = strategy then
        let pub ← newInformationItem fatherScope.strategy father
        updateIDs .item pub (lastFragment fullID)
        register .item role pub fullID host (onNew pub father)
      else
        pure .strategyMismatch
    | some pub =>
      if fatherScope.strategy = strategy then
        register .item role pub fullID host (onExisting pub)
      else
        pure .strategyMismatch

def advertiseInfo : RV RvReturnCode :=
  enterInfo .publisher publisher id prefixID strategy
    (fun pub father => do
      let item ← deref pub
      let fatherScope ← deref father
      let subscribers := fatherScope.getSubscribers (item.getSubscribers ∅)
      matchPublication pub subscribers id prefixID strategy updateOnly)
    (fun pub => do
      let subscribers ← allSubscribers pub
      matchPublication pub subscribers id prefixID strategy updateOnly)

/-- What `readvertise_info` does once the publisher is added. -/
def matchReadvertised (suffixID prefixID : ID) (strategy : Strategy)
    (updateOnly : Bool) : RV Unit := do
  let subscribers ← allSubscribers pub
  matchPublication pub subscribers suffixID prefixID strategy updateOnly

def readvertiseInfo : RV RvReturnCode := do
  let suffixID := lastFragment id
  let fullID := prefixID ++ suffixID
  let scopeIndex ← Program.read (·.scopeIndex)
  if fullID ∈ scopeIndex then
    pure .scopeWithSameId
  else
    match scopeIndex.get prefixID with
    | none => pure .fatherDoesNotExist
    | some father =>
      let pubIndex ← Program.read (·.pubIndex)
      match pubIndex.get id with
      | none => pure .infoDoesNotExist
      | some existing =>
        let fatherScope ← deref father
        match pubIndex.get fullID with
        | none =>
          if fatherScope.strategy = strategy then
            assign existing fun node =>
              { node with fatherScopes := node.fatherScopes.insert father }
            assign father (·.modifyChildren (·.insert existing) .item)
            updateIDs .item existing suffixID
            register .item .publisher existing fullID publisher
              (matchReadvertised existing suffixID prefixID strategy updateOnly)
          else
            pure .strategyMismatch
        | some equivalent =>
          if fatherScope.strategy = strategy then
            register .item .publisher equivalent fullID publisher
              (matchReadvertised equivalent suffixID prefixID strategy updateOnly)
          else
            pure .strategyMismatch

def publishInfo : RV RvReturnCode :=
  if 0 < prefixID.length ∧ id.length = 1 then
    advertiseInfo publisher id prefixID strategy updateOnly
  else if 0 < prefixID.length ∧ 1 < id.length then
    readvertiseInfo publisher id prefixID strategy updateOnly
  else
    pure .wrongIds

/-- First tell a new subscriber of a scope about the subscopes that are there. -/
def notifySubscopes (subscriber : NodeID) (sc : Ptr) : RV Unit := do
  let scope ← deref sc
  forM scope.childrenScopes.keys fun child => do
    let subscope ← deref child
    notifySubscribers .scopePublished subscope.getIDs subscope.strategy
      ((∅ : HashSet NodeID).insert subscriber)

/-- The rendezvous for one item: one-shot when the root scope is known, a channel otherwise. -/
def matchSubscribed (prefixID : ID)
    (strategy : Strategy) (updateOnly : Bool) : RV Unit := do
  rendezvous pub subscribers updateOnly
  if known then unpublishAllUnder pub prefixID strategy updateOnly else pure ()

def subscribeRootScope : RV RvReturnCode :=
  enterRootScope .subscriber subscriber id strategy fun sc => do
    notifySubscopes subscriber sc
    let scope ← deref sc
    forM scope.informationitems.keys fun pub => do
      let subscribers ← allSubscribers pub
      matchSubscribed (id ∈ knownRootScopes) pub subscribers id strategy updateOnly

/-- The item loop of `subscribe_inner_scope`; `_RootScopeids` is not cleared in between. -/
def matchSubscribedItems (rootScopes : HashSet ID) (fullID : ID) (strategy : Strategy)
    (updateOnly : Bool) : List Ptr → RV Unit
  | [] => pure ()
  | pub :: rest => do
    let subscribers ← allSubscribers pub
    let item ← deref pub
    let rootScopes := item.getRootScopes rootScopes
    let known ← firstIsKnown rootScopes
    matchSubscribed known pub subscribers fullID strategy updateOnly
    matchSubscribedItems rootScopes fullID strategy updateOnly rest

def subscribeInnerScope : RV RvReturnCode :=
  enterInnerScope fuel .subscriber subscriber id prefixID strategy fun sc => do
    notifySubscopes subscriber sc
    let scope ← deref sc
    matchSubscribedItems ∅ (prefixID ++ id) strategy updateOnly scope.informationitems.keys

def subscribeScope : RV RvReturnCode :=
  if prefixID.length = 0 ∧ id.length = 1 then
    subscribeRootScope subscriber id strategy updateOnly
  else if 0 < prefixID.length ∧ id.length = 1 then
    subscribeInnerScope fuel subscriber id prefixID strategy updateOnly
  else
    pure .wrongIds

def subscribeInfo : RV RvReturnCode :=
  if 0 < prefixID.length ∧ id.length = 1 then
    enterInfo .subscriber subscriber id prefixID strategy
      (fun _ _ => pure ())
      (fun pub => do
        let subscribers ← allSubscribers pub
        let item ← deref pub
        let known ← firstIsKnown (item.getRootScopes ∅)
        rendezvous pub subscribers updateOnly
        if known then unpublishAll pub id prefixID strategy updateOnly else pure ())
  else
    pure .wrongIds

/-- Delete a scope, or its branch under `father`, once nothing is left in it. -/
def withdrawScope (father : Ptr) (fullID : ID) : RV Unit := do
  let scope ← deref sc
  if scope.childrenScopes.size = 0 ∧ scope.informationitems.size = 0 then
    let others ← checkForOtherPubSub sc father
    if others then
      pure ()
    else
      let fatherScope ← deref father
      let subscribers := fatherScope.getSubscribers ∅
      if scope.fatherScopes.size = 1 then
        notifySubscribers .scopeUnpublished scope.getIDs scope.strategy subscribers
        deleteUnder .scope sc father
      else
        -- the identifiers of all other branches are erased from the set one by one
        let ids := scope.getIDs.keys.foldl
          (fun ids id => if id = fullID then ids else ids.erase id) scope.getIDs
        notifySubscribers .scopeUnpublished ids scope.strategy subscribers
        deleteBranch .scope sc father
  else
    pure ()

def withdrawRootScope : RV Unit := do
  let scope ← deref sc
  if scope.childrenScopes.size = 0 ∧ scope.informationitems.size = 0 then
    let others ← checkRootForOtherPubSub sc
    if others then pure () else deleteNode .scope sc
  else
    pure ()

/-- The first loop of `unpublish_scope`: every item, under every identifier of the scope. -/
def unpublishInformationItems (publisher : NodeID) (sc : Ptr) (strategy : Strategy)
    (updateOnly : Bool) : RV Unit := do
  let scope ← deref sc
  forM scope.informationitems.keys fun pub => do
    let item ← deref pub
    let first ← firstID item
    forM scope.ids.keys fun scPrefixID => do
      let _ ← unpublishInfo publisher (lastFragment first) scPrefixID strategy updateOnly

def unpublishScope : RV RvReturnCode := do
  let fullID := prefixID ++ id
  let scopeIndex ← Program.read (·.scopeIndex)
  match scopeIndex.get fullID with
  | none => pure .scopeDoesNotExist
  | some sc =>
    let scope ← deref sc
    if scope.strategy = strategy then
      unpublishInformationItems publisher sc strategy updateOnly
      match scopeIndex.get prefixID with
      | some father =>
        unregister .scope .publisher sc fullID publisher (withdrawScope sc father fullID)
      | none =>
        unregister .scope .publisher sc fullID publisher (withdrawRootScope sc)
    else
      pure .strategyMismatch

/-- The rendezvous of `unsubscribe_scope` for the items under the scope. -/
def rendezvousUnder (updateOnly : Bool) : RV Unit := do
  let scope ← deref sc
  if known then
    pure ()
  else
    forM scope.informationitems.keys fun pub => rendezvousAll pub updateOnly

def unsubscribeScope : RV RvReturnCode := do
  let rootScope := rootFragment prefixID
  let fullID := prefixID ++ id
  let scopeIndex ← Program.read (·.scopeIndex)
  match scopeIndex.get fullID with
  | none => pure .scopeDoesNotExist
  | some sc =>
    let scope ← deref sc
    if scope.strategy = strategy then
      match scopeIndex.get prefixID with
      | some father =>
        unregister .scope .subscriber sc fullID subscriber do
          rendezvousUnder (rootScope ∈ knownRootScopes) sc updateOnly
          withdrawScope sc father fullID
      | none =>
        unregister .scope .subscriber sc fullID subscriber do
          rendezvousUnder (fullID ∈ knownRootScopes) sc updateOnly
          withdrawRootScope sc
    else
      pure .strategyMismatch

/-- Unlike `unpublish_info`, the rendezvous comes before a branch is deleted. -/
def unsubscribeInfo : RV RvReturnCode := do
  let fullID := prefixID ++ id
  let found ← Program.read (·.pubIndex.get fullID)
  let fatherScope ← Program.read (·.scopeIndex.get prefixID)
  match found with
  | none => pure .infoDoesNotExist
  | some pub =>
    let father ← Program.expect .missing fatherScope
    let fatherNode ← deref father
    if fatherNode.strategy = strategy then
      unregister .item .subscriber pub fullID subscriber do
        let item ← deref pub
        rendezvousAgain (item.getRootScopes ∅) pub updateOnly
        let others ← checkForOtherPubSub pub father
        if others then
          pure ()
        else if item.fatherScopes.size = 1 then
          deleteUnder .item pub father
        else
          deleteBranch .item pub father
    else
      pure .strategyMismatch

/-- The request types `push` dispatches on; `unknown` is the `default` of its `switch`. -/
inductive RequestType where
  | publishScope | publishInfo | unpublishScope | unpublishInfo
  | subscribeScope | subscribeInfo | unsubscribeScope | unsubscribeInfo
  | unknown
  deriving DecidableEq, Repr

/-- A publish/subscribe request as `push` takes it out of a `PUBLISHED_DATA` event. -/
structure Request where
  nodeID : NodeID
  type : RequestType
  id : ID
  prefixID : ID
  strategy : Strategy
  deriving DecidableEq

inductive Event where
  | publishedData (request : Request)
  | publishedDataISub (isubscribers : List NodeID)
  | unexpected

def getRemoteHost (nodeID : NodeID) : RV Unit :=
  Program.update fun s => { s with pubSubIndex := s.pubSubIndex.findInsert nodeID {} }

/-- The `switch` of `push`. -/
def dispatch (fuel : Nat) (request : Request) : RV RvReturnCode :=
  match request.type with
  | .publishScope =>
    publishScope fuel request.nodeID request.id request.prefixID request.strategy
  | .publishInfo =>
    publishInfo request.nodeID request.id request.prefixID request.strategy false
  | .unpublishScope =>
    unpublishScope request.nodeID request.id request.prefixID request.strategy false
  | .unpublishInfo =>
    unpublishInfo request.nodeID request.id request.prefixID request.strategy false
  | .subscribeScope =>
    subscribeScope fuel request.nodeID request.id request.prefixID request.strategy false
  | .subscribeInfo =>
    subscribeInfo request.nodeID request.id request.prefixID request.strategy false
  | .unsubscribeScope =>
    unsubscribeScope request.nodeID request.id request.prefixID request.strategy true
  | .unsubscribeInfo =>
    unsubscribeInfo request.nodeID request.id request.prefixID request.strategy true
  | .unknown => pure .unknownRequestType

def push (fuel : Nat) : Event → RV Unit
  | .publishedData request => do
    getRemoteHost request.nodeID
    let _ ← dispatch fuel request
  | .publishedDataISub isubscribers =>
    requestTMAssistanceForiSubscription ((∅ : HashSet NodeID).insertAll isubscribers) false
  | .unexpected => pure ()

/-- The element once `initialize` has made its local proxy known. -/
def initialState (nodeID : NodeID) : LocalRV :=
  { localProxy := nodeID
    pubSubIndex := (∅ : HashTable NodeID RemoteHost).findInsert nodeID {} }

end Blackadder.Rendezvous
