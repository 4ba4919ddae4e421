import JamSession.Controllers.SignUpFields
import JamSession.Controllers.AllOrNothing
import JamSession.Sequential.Symmetry
import JamSession.Sequential.WellFormed
import JamSession.Sequential.Blocking
import JamSession.Sequential.Undoing
import JamSession.Sequential.Graph
import JamSession.Interleaved.AtOnce
import JamSession.Interleaved.FlowByFlow
import JamSession.Interleaved.Rest
import JamSession.Interleaved.Consent
import JamSession.Interleaved.Undone
import JamSession.Interleaved.Blocks
import JamSession.Interleaved.Taps
import JamSession.Interleaved.Bystanders
import JamSession.Interleaved.ConcurrentAccepts
import JamSession.Interleaved.OverlappingAccepts
import JamSession.Interleaved.FriendsScreen
import JamSession.Interleaved.Handled
import JamSession.Interleaved.Usernames
import JamSession.Interleaved.SignUps
import JamSession.Interleaved.RequestKeys
import JamSession.Interleaved.RequestHistory
import JamSession.Interleaved.Profiles
import JamSession.Listener.Mirror
import JamSession.Friends.Cache
import JamSession.Friends.Cells
import JamSession.Chats.ChatList
import JamSession.Chats.Opening
import JamSession.Chats.Loading
import JamSession.Chats.References
import JamSession.Chats.Progress
import JamSession.Chats.MessageCells
import JamSession.Threads.Delivery
import JamSession.Threads.Conversation
import JamSession.Threads.Mailboxes
import JamSession.Events.Location
import JamSession.Events.Matching
import JamSession.Events.Search
import JamSession.Events.Resaving
import JamSession.Events.SearchScreen
