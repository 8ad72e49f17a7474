import QueryPad.Completion.Item

-- What a shell knows without a database.
namespace QueryPad.Completion

open Text

-- Functions of the database.
def databaseFunctions : List String :=
  ["adminCommand", "aggregate", "auth", "changeUserPassword", "commandHelp", "createCollection",
    "createRole", "createUser", "createView", "currentOp", "dropAllRoles", "dropAllUsers",
    "dropDatabase", "dropRole", "dropUser", "fsyncLock", "fsyncUnlock", "getCollection",
    "getCollectionInfos", "getCollectionNames", "getLastError", "getLastErrorObj",
    "getLogComponents", "getMongo", "getName", "getProfilingLevel", "getProfilingStatus",
    "getReplicationInfo", "getRole", "getRoles", "getSiblingDB", "getUser", "getUsers",
    "grantPrivilegesToRole", "grantRolesToRole", "grantRolesToUser", "hostInfo", "isMaster",
    "killOp", "listCommands", "logout", "printCollectionStats", "printReplicationInfo",
    "printShardingStatus", "printSlaveReplicationInfo", "revokePrivilegesFromRole",
    "revokeRolesFromRole", "revokeRolesFromUser", "runCommand", "serverBuildInfo",
    "serverCmdLineOpts", "serverStatus", "setLogLevel", "setProfilingLevel", "shutdownServer",
    "stats", "updateRole", "updateUser", "version"]

-- Methods of a collection.
def collectionMethods : List String :=
  ["aggregate", "bulkWrite", "count", "countDocuments", "createIndex", "createIndexes",
    "dataSize", "deleteMany", "deleteOne", "distinct", "drop", "dropIndex", "dropIndexes",
    "estimatedDocumentCount", "explain", "find", "findAndModify", "findOne", "findOneAndDelete",
    "findOneAndReplace", "findOneAndUpdate", "getIndexes", "getShardDistribution",
    "getShardVersion", "insert", "insertMany", "insertOne", "isCapped", "latencyStats",
    "mapReduce", "reIndex", "remove", "renameCollection", "replaceOne", "save", "stats",
    "storageSize", "totalIndexSize", "totalSize", "update", "updateMany", "updateOne", "validate",
    "watch"]

-- An item that writes its own label.
def itemAt (range : Range) (kind : ItemKind) (label : String) : CompletionItem :=
  { label, kind := some kind, edit := some (.replace range label) }

def keywordItem (range : Range) : CompletionItem := itemAt range .keyword "db"

-- Collections rank above functions.
def collectionItems (names : List String) (range : Range) : List CompletionItem :=
  names.map fun name =>
    { itemAt range .property name with
      filterText := some name
      sortText := some ("1:" ++ name) }

def functionItems (range : Range) : List CompletionItem :=
  databaseFunctions.map fun name =>
    { itemAt range .method name with
      detail := some ("db." ++ name ++ "()")
      sortText := some ("2:" ++ name) }

def methodItems (range : Range) : List CompletionItem :=
  collectionMethods.map fun name =>
    { itemAt range .method name with detail := some ("db.<collection>." ++ name ++ "()") }

end QueryPad.Completion
