import XMongoStorage.Bytes
import XMongoStorage.BTree
import XMongoStorage.BTreeShape
import XMongoStorage.BTreeRouting
import XMongoStorage.BTreeChain
import XMongoStorage.BTreeTermination
import XMongoStorage.RecordId
import XMongoStorage.RecordStore
import XMongoStorage.SortedData
import XMongoStorage.Concurrent
import XMongoStorage.RecoveryUnit
import XMongoStorage.Session
import XMongoStorage.KVEngine
import XMongoStorage.Engine
import XMongoStorage.EngineRuns
import XMongoStorage.EngineIndex
import XMongoStorage.InMemoryEngine
import XMongoStorage.Protocol
import XMongoStorage.Listener
import XMongoStorage.Truncate
import XMongoStorage.Utf8
import XMongoStorage.JsonDecode
import XMongoStorage.EngineFind
