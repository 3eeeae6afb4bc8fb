import ChatApp.Lib.Runs
import ChatApp.Lib.Tree
import ChatApp.Lib.Assoc
import ChatApp.Lib.Leaves
import ChatApp.Lib.Modal
import ChatApp.Lib.Replica
import ChatApp.Lib.Returns
import ChatApp.Firebase.Node
import ChatApp.Firebase.Reference
import ChatApp.Firebase.Export
import ChatApp.Firebase.ImmutableTree
import ChatApp.Firebase.CompoundWrite
import ChatApp.Firebase.WriteTree
import ChatApp.Firebase.View.Filter
import ChatApp.Firebase.View.Caches
import ChatApp.Firebase.View.Processor
import ChatApp.Firebase.View.Effects
import ChatApp.Firebase.View.Events
import ChatApp.Firebase.View.Listeners
import ChatApp.Firebase.LLRB.Node
import ChatApp.Firebase.LLRB.Balance
import ChatApp.Firebase.LLRB.Remove
import ChatApp.Firebase.LLRB.Builder
import ChatApp.Firebase.SortedDictionary
import ChatApp.Firebase.Enumerators
import ChatApp.Firebase.Keys
import ChatApp.Firebase.UpdatePaths
import ChatApp.Firebase.RangeMerge
import ChatApp.Firebase.Connection
import ChatApp.Firebase.PushId
import ChatApp.Records
import ChatApp.Keyboard
import ChatApp.Screens
import ChatApp.Table.Cells
import ChatApp.Table.Rows
import ChatApp.Table.Labels
import ChatApp.Session.Device
import ChatApp.Session.Title
import ChatApp.Session.Sender
import ChatApp.Register.Flow
import ChatApp.Register.Users
import ChatApp.Register.Atomic
import ChatApp.Register.Chats
import ChatApp.Feed
